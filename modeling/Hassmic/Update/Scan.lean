import Hassmic.Update.Look

/-!
# What a look reads of a release

A release is an object of JSON: members in any order, any number of them, with white space and
values of every kind.  The scanner of its text finds the first member whose name is written as the
key.  Of a string it reads the characters that the string stands for, as far as the buffer holds
them, of any other value the text.

## Main definitions

* `Field`, `Release` — an object by what it is made of, and its text.
* `characters`, `fitting` — the characters of a string, and those that a buffer holds.
* `shown` — what is read of a value.
* `Proper`, `versionOf` — a tag that may go into an URL, and the version in it.
* `Release.shownTag`, `Release.version` — the tag and the version that a look takes.

## Main results

* `jsonGet_release` — **the scanner reads the first member of the name**, whatever else is in the
  object.
* `elementVersion_release` — **the version of an element is the one in that member**.
-/

namespace Hassmic.Update

open Byte Text Json List Option

/-! ### An object -/

/-- A member of an object. -/
structure Field where
  pre : Bytes
  name : Bytes
  a : Bytes
  b : Bytes
  value : Bytes
  post : Bytes
  isWs : Ws pre ∧ Ws a ∧ Ws b ∧ Ws post
  isName : Chars isEscape name
  isValue : ∃ d n, Value d n value

namespace Field

variable (f : Field)

/-- What stands behind the colon. -/
def behind : Bytes := f.b ++ (f.value ++ f.post)

def text : Bytes := f.pre ++ quote :: (f.name ++ quote :: (f.a ++ colon :: f.behind))

end Field

/-- Items with a comma between each two. -/
def commas : List Bytes → Bytes
  | [] => []
  | [x] => x
  | x :: y :: l => x ++ comma :: commas (y :: l)

/-- An object in a list. -/
structure Release where
  pre : Bytes
  gap : Bytes
  fields : List Field
  post : Bytes
  isWs : Ws pre ∧ Ws gap ∧ Ws post

namespace Release

variable (r : Release)

/-- What stands between its braces. -/
def inner : Bytes := r.gap ++ commas (r.fields.map Field.text)

def text : Bytes := lbrace :: (r.inner ++ [rbrace])

end Release

/-! ### What is read of a value -/

/-- The continuation bytes at the start of a text, at most so many. -/
def conts (n : ℕ) (l : Bytes) : Bytes := (l.takeWhile isCont).take n

/-- The characters of a string, each in its bytes.  A sequence of UTF-8 is one character; `\b` and
`\f` are read as spaces, and half of a surrogate pair as U+FFFD. -/
def characters : Bytes → List Bytes
  | [] => []
  | c :: l =>
      if c = backslash then
        match l with
        | [] => []
        | e :: l =>
            if e = 0x75 then
              match l with
              | a :: b :: c :: d :: l =>
                  let u := codeUnit [a, b, c, d]
                  utf8 (if 0xd800 ≤ u ∧ u < 0xe000 then 0xfffd else u) :: characters l
              | _ => []
            else [if e = 0x62 ∨ e = 0x66 then space else escaped e] :: characters l
      else if 0xc0 ≤ c then (c :: conts 3 l) :: (characters l).drop (conts 3 l).length
      else [c] :: characters l

/-- The characters that a buffer of so many bytes holds in front of its NUL: the first that is too
long ends them. -/
def fitting : ℕ → List Bytes → Bytes
  | _, [] => []
  | cap, c :: cs => if c.length < cap then c ++ fitting (cap - c.length) cs else []

/-- Where a value that is no string ends: at a comma, a bracket, white space or a NUL. -/
def ends (c : UInt8) : Bool := c = comma || closes c || isWs c || c = nul

/-- What is read of a value: the characters of a string up to a NUL, the text of any other. -/
def shown (cap : ℕ) : Bytes → Bytes
  | [] => []
  | c :: l =>
      if c = quote then (fitting cap (characters l.dropLast)).takeWhile (· ≠ nul)
      else ((c :: l).takeWhile (!ends ·)).take (cap - 1)

/-! ### Tags -/

/-- A tag that may go into an URL: of 1 to 60 characters, each a letter, a digit or one of
`.+_-`. -/
def Proper (t : Bytes) : Prop :=
  t ≠ [] ∧ t.length ≤ 60 ∧ ∀ c ∈ t, alnum c = true ∨ c ∈ Byte.text ".+_-"

instance (t : Bytes) : Decidable (Proper t) := inferInstanceAs (Decidable (_ ∧ _ ∧ _))

/-- The version in a tag: without the `v` in front of it, and without a `-beta` at its end, if there
is no other `-beta` in it. -/
def versionOf (t : Bytes) : Bytes :=
  let v := if t.head? = some 0x76 then t.tail else t
  if Byte.text "-beta" <:+ v ∧ ¬ Byte.text "-beta" <:+: v.dropLast then v.take (v.length - 5) else v

example : versionOf (Byte.text "v2026.10.02-beta") = Byte.text "2026.10.02" := by decide +kernel

namespace Release

variable (r : Release)

/-- The tag that a look reads: what is shown of the first member with the name `tag_name`, written
without escapes. -/
def shownTag : Option Bytes :=
  (r.fields.find? fun f => f.name = Byte.text "tag_name").map fun f => shown 64 f.value

/-- The version that a look takes: the one in the tag, if that may go into an URL. -/
def version : Option Bytes := (r.shownTag.filter fun t => Proper t).map versionOf

end Release

/-! ### White space and values -/

theorem isSpace_of_isWs : ∀ {c : UInt8}, isWs c = true →
    isSpace c = true ∧ opens c = false ∧ closes c = false ∧ c ≠ quote ∧ c ≠ colon := by
  intro c h
  simp only [isWs, Bool.or_eq_true, beq_iff_eq] at h
  rcases h with ((rfl | rfl) | rfl) | rfl <;> decide

theorem dropWhile_ws {k : Bytes} (h : Ws k) (l : Bytes) :
    (k ++ l).dropWhile isSpace = l.dropWhile isSpace := by
  induction k with
  | nil => rfl
  | cons c k ih =>
    have hc := (isSpace_of_isWs (h c mem_cons_self)).1
    rw [cons_append, dropWhile_cons_of_pos hc]
    exact ih fun x hx => h x (mem_cons_of_mem c hx)

/-- The bytes that end a value are those that the scanner stops at. -/
theorem strchr_ends (c : UInt8) :
    strchr [comma, rbrace, rbracket, space, tab, cr, lf] c = ends c := by
  revert c
  decide +kernel

/-- **How a value begins**: a string with its quote, any other with a byte that does not end it. -/
theorem Value.begins {d n : ℕ} {v : Bytes} (h : Value d n v) :
    ∃ c l, v = c :: l ∧ isSpace c = false ∧
    (c = quote → ∃ k, Chars isEscape k ∧ l = k ++ [quote]) ∧ (c ≠ quote → ends c = false) := by
  have hstart : ∀ {V : ℕ → Bytes → Prop}, ValueOf V n v → ∃ c l, v = c :: l ∧ isSpace c = false ∧
      (c = quote → ∃ k, Chars isEscape k ∧ l = k ++ [quote]) ∧ (c ≠ quote → ends c = false) := by
    intro V hv
    cases hv with
    | @string k hk => exact ⟨_, _, rfl, rfl, fun _ => ⟨k, hk, rfl⟩, fun hne => absurd rfl hne⟩
    | @number c l hc =>
      have hnumber : ∀ c : UInt8, isDigit c = true ∨ c = minus →
          isSpace c = false ∧ c ≠ quote ∧ ends c = false := by decide +kernel
      obtain ⟨hspace, hne, hends⟩ := hnumber c hc
      exact ⟨c, l, rfl, hspace, fun heq => absurd heq hne, fun _ => hends⟩
    | literal hw =>
      have hwords : ∀ w ∈ words, ∃ c l, w.1 = c :: l ∧ isSpace c = false ∧ c ≠ quote ∧
          ends c = false := by
        intro w hw
        fin_cases hw
        · exact ⟨_, _, rfl, by decide, by decide, by decide⟩
        · exact ⟨_, _, rfl, by decide, by decide, by decide⟩
        · exact ⟨_, _, rfl, by decide, by decide, by decide⟩
      obtain ⟨c, l, hl, hspace, hne, hends⟩ := hwords _ hw
      exact ⟨c, l, hl, hspace, fun heq => absurd heq hne, fun _ => hends⟩
    | emptyArray =>
      exact ⟨_, _, rfl, by decide, fun heq => absurd heq (by decide), fun _ => by decide⟩
    | array => exact ⟨_, _, rfl, by decide, fun heq => absurd heq (by decide), fun _ => by decide⟩
    | emptyObject =>
      exact ⟨_, _, rfl, by decide, fun heq => absurd heq (by decide), fun _ => by decide⟩
    | object => exact ⟨_, _, rfl, by decide, fun heq => absurd heq (by decide), fun _ => by decide⟩
  cases d with
  | zero => exact hstart h
  | succ d => exact hstart h

/-! ### Strings are read -/

section strings

variable {cap : ℕ} {seq k l out : Bytes}

/-- The characters behind the first bytes of one, which the continuation bytes that follow belong
to. -/
def resumed (seq k : Bytes) : List Bytes :=
  (seq ++ conts (4 - seq.length) k) :: (characters k).drop (conts (4 - seq.length) k).length

/-- Nothing more belongs to a character in front of another one, or of four bytes. -/
theorem resumed_whole (h : ¬ ((∃ c ∈ k.head?, isCont c = true) ∧ seq.length < 4)) :
    resumed seq k = seq :: characters k := by
  have hm : conts (4 - seq.length) k = [] := by
    unfold conts
    cases k with
    | nil => exact take_nil
    | cons c k =>
      by_cases hc : isCont c = true
      · have hlen : ¬ seq.length < 4 := fun hlt => h ⟨⟨c, rfl, hc⟩, hlt⟩
        rw [Nat.sub_eq_zero_of_le (not_lt.mp hlen), take_zero]
      · rw [takeWhile_cons_of_neg hc, take_nil]
  unfold resumed
  rw [hm, append_nil]
  rfl

theorem isCont_plain : ∀ {c : UInt8}, isCont c = true → c ≠ backslash ∧ c ≠ quote ∧ ¬ 0xc0 ≤ c := by
  decide +kernel

/-- A continuation byte goes to the character that is at hand. -/
theorem resumed_cont {c : UInt8} (hc : isCont c = true) (hlen : seq.length < 4) :
    resumed seq (c :: k) = resumed (seq ++ [c]) k := by
  obtain ⟨hb, -, hlow⟩ := isCont_plain hc
  have hroom : 4 - seq.length = 4 - (seq ++ [c]).length + 1 := by
    rw [length_append, length_singleton]
    omega
  have hone : characters (c :: k) = [c] :: characters k := by
    rw [characters.eq_def]
    dsimp only
    rw [if_neg hb, if_neg hlow]
  have hmore : conts (4 - seq.length) (c :: k) = c :: conts (4 - (seq ++ [c]).length) k := by
    unfold conts
    rw [takeWhile_cons_of_pos hc, hroom, take_succ_cons]
  unfold resumed
  rw [hmore, hone, append_assoc]
  rfl

/-- A character that is whole is placed before the next byte is read. -/
theorem stringLoop_whole {c : UInt8} {out : Bytes × Bool} (hne : seq ≠ [])
    (h : ¬ (isCont c = true ∧ seq.length < 4)) (l : Bytes) :
    stringLoop cap seq out (c :: l) = stringLoop cap [] (place cap out seq) (c :: l) := by
  rw [stringLoop.eq_def, stringLoop.eq_def cap []]
  dsimp only
  have hfirst : ¬ (([] : Bytes) ≠ [] ∧ isCont c = true ∧ ([] : Bytes).length < 4) :=
    fun hin => hin.1 rfl
  rw [if_neg (fun hin => h hin.2), if_neg hne, if_neg hfirst, if_pos rfl]

/-- The digits and letters of an escape are read as they are meant. -/
theorem escape_facts : (∀ c : UInt8, isHex c = true → escapeDigit c = hexVal c) ∧
    ∀ e : UInt8, escapeLetter e = if e = 0x62 ∨ e = 0x66 then space else escaped e := by
  decide +kernel

theorem escapeUnit_hex {a b c d : UInt8} (h : (isHex a && isHex b && isHex c && isHex d) = true) :
    escapeUnit [a, b, c, d] =
      utf8 (if 0xd800 ≤ codeUnit [a, b, c, d] ∧ codeUnit [a, b, c, d] < 0xe000 then 0xfffd
      else codeUnit [a, b, c, d]) := by
  obtain ⟨hdigit, -⟩ := escape_facts
  simp only [Bool.and_eq_true] at h
  obtain ⟨⟨⟨ha, hb⟩, hc⟩, hd⟩ := h
  have hunit : ([a, b, c, d].take 4).foldl (fun u c => 16 * u + escapeDigit c) 0 =
      codeUnit [a, b, c, d] := by
    unfold codeUnit
    simp only [take_succ_cons, take_zero, foldl_cons, foldl_nil, hdigit a ha, hdigit b hb,
      hdigit c hc, hdigit d hd]
  unfold escapeUnit
  rw [hunit]

/-- **A string is read character by character**, also from within one on. -/
theorem stringLoop_chars (hk : Chars isEscape k) (l : Bytes) :
    (∀ out, stringLoop cap [] out (k ++ quote :: l) =
      some ((characters k).foldl (place cap) out).1) ∧
      ∀ seq out, seq ≠ [] →
        stringLoop cap seq out (k ++ quote :: l) =
        some ((resumed seq k).foldl (place cap) out).1 := by
  -- where the next byte does not belong to the character, this is placed first
  have hwhole : ∀ {c : UInt8} {k}, isCont c = false →
      (∀ out, stringLoop cap [] out (c :: k ++ quote :: l) =
        some ((characters (c :: k)).foldl (place cap) out).1) →
      ∀ seq out, seq ≠ [] → stringLoop cap seq out (c :: k ++ quote :: l) =
        some ((resumed seq (c :: k)).foldl (place cap) out).1 := by
    intro c k hc hnext seq out hne
    have hno : ¬ (isCont c = true ∧ seq.length < 4) := fun h => by rw [hc] at h; exact nomatch h.1
    have hend : ¬ ((∃ x ∈ (c :: k).head?, isCont x = true) ∧ seq.length < 4) := by
      rintro ⟨⟨x, hx, hcont⟩, hlen⟩
      obtain rfl := some.inj hx
      exact hno ⟨hcont, hlen⟩
    rw [cons_append, stringLoop_whole hne hno, ← cons_append, hnext, resumed_whole hend, foldl_cons]
  induction hk with
  | nil =>
    have hfirst : ∀ out, stringLoop cap [] out ([] ++ quote :: l) = some out.1 := by
      intro out
      rw [nil_append, stringLoop.eq_def]
      dsimp only
      rw [if_neg (fun h => h.1 rfl), if_pos rfl, if_pos rfl]
    refine ⟨hfirst, ?_⟩
    intro seq out hne
    have hno : ¬ (isCont quote = true ∧ seq.length < 4) := fun h => absurd h.1 (by decide)
    have hend : ¬ ((∃ x ∈ ([] : Bytes).head?, isCont x = true) ∧ seq.length < 4) := by
      rintro ⟨⟨x, hx, -⟩, -⟩
      exact nomatch hx
    rw [nil_append, stringLoop_whole hne hno, resumed_whole hend]
    exact hfirst _
  | @unescaped c k hlow hq hb hk ih =>
    have hfirst : ∀ out, stringLoop cap [] out (c :: k ++ quote :: l) =
        some ((characters (c :: k)).foldl (place cap) out).1 := by
      intro out
      rw [cons_append, stringLoop.eq_def, characters.eq_def]
      dsimp only
      rw [if_neg (fun h => h.1 rfl), if_pos rfl, if_neg hq, if_neg hb, if_neg hb]
      by_cases hlead : 0xc0 ≤ c
      · rw [if_pos hlead, if_pos hlead]
        exact ih.2 [c] out (cons_ne_nil c [])
      · rw [if_neg hlead, if_neg hlead, foldl_cons]
        exact ih.1 _
    refine ⟨hfirst, ?_⟩
    intro seq out hne
    by_cases hc : isCont c = true ∧ seq.length < 4
    · rw [cons_append, stringLoop.eq_def]
      dsimp only
      rw [if_pos ⟨hne, hc⟩, resumed_cont hc.1 hc.2]
      exact ih.2 _ out (append_ne_nil_of_right_ne_nil _ (cons_ne_nil c []))
    · have hend : ¬ ((∃ x ∈ (c :: k).head?, isCont x = true) ∧ seq.length < 4) := by
        rintro ⟨⟨x, hx, hcont⟩, hlen⟩
        obtain rfl := some.inj hx
        exact hc ⟨hcont, hlen⟩
      rw [cons_append, stringLoop_whole hne hc, ← cons_append, hfirst,
        resumed_whole hend, foldl_cons]
  | @escaped e k hu he hk ih =>
    have hfirst : ∀ out, stringLoop cap [] out (backslash :: e :: k ++ quote :: l) =
        some ((characters (backslash :: e :: k)).foldl (place cap) out).1 := by
      intro out
      rw [cons_append, cons_append, stringLoop.eq_def, characters.eq_def]
      dsimp only
      rw [if_neg (fun h => h.1 rfl), if_pos rfl, if_neg (by decide), if_pos rfl, if_pos rfl,
        if_neg hu, if_neg hu, escape_facts.2, foldl_cons]
      exact ih.1 _
    exact ⟨hfirst, hwhole (by decide) hfirst⟩
  | @unicode a b c d k hx hk ih =>
    have hfirst : ∀ out, stringLoop cap [] out
        (backslash :: 0x75 :: a :: b :: c :: d :: k ++ quote :: l) =
        some ((characters (backslash :: 0x75 :: a :: b :: c :: d :: k)).foldl
          (place cap) out).1 := by
      intro out
      simp only [cons_append]
      rw [stringLoop.eq_def, characters.eq_def]
      dsimp only
      rw [if_neg (fun h => h.1 rfl), if_pos rfl, if_neg (by decide), if_pos rfl, if_pos rfl,
        if_pos rfl, if_pos rfl, escapeUnit_hex hx, foldl_cons]
      exact ih.1 _
    exact ⟨hfirst, hwhole (by decide) hfirst⟩

/-- What the buffer holds of the characters. -/
theorem place_foldl (cs : List Bytes) : (cs.foldl (place cap) (out, true)).1 = out ∧
    (cs.foldl (place cap) (out, false)).1 = out ++ fitting (cap - out.length) cs := by
  induction cs generalizing out with
  | nil => exact ⟨rfl, (append_nil out).symm⟩
  | cons c cs ih =>
    refine ⟨ih.1, ?_⟩
    rw [foldl_cons, fitting]
    by_cases hfit : out.length + c.length < cap
    · have hplace : place cap (out, false) c = (out ++ c, false) :=
        if_pos (by rw [decide_eq_true hfit]; rfl)
      rw [hplace, if_pos (by omega), ih.2, length_append, Nat.sub_sub, append_assoc]
    · have hplace : place cap (out, false) c = (out, true) :=
        if_neg (by rw [decide_eq_false hfit, Bool.and_false]; decide)
      rw [hplace, if_neg (by omega), ih.1, append_nil]

/-- **`json_string` reads the characters that fit**, up to a NUL. -/
theorem jsonString_chars (hk : Chars isEscape k) (l : Bytes) : jsonString cap (k ++ quote :: l) =
    some ((fitting cap (characters k)).takeWhile (· ≠ nul)) := by
  unfold jsonString
  rw [(stringLoop_chars hk l).1, (place_foldl _).2]
  rfl

example : jsonString 3 (Byte.text "a\\u0062c\"") = some (Byte.text "ab") := by decide +kernel

end strings

/-! ### The scanner passes values by -/

section scan

variable {key k l v : Bytes} {cap depth : ℕ}

/-- A string is read to its end: it is a name if a colon follows. -/
theorem getLoop_raw (hk : Raw k) (done l : Bytes) :
    getLoop key cap (some done) depth (k ++ quote :: l) =
      if depth = 1 ∧ (l.dropWhile isSpace).head? = some colon ∧ done ++ k = key then
        fieldValue cap (l.dropWhile isSpace).tail
      else getLoop key cap none depth l := by
  induction hk generalizing done with
  | nil =>
    rw [nil_append, append_nil, getLoop.eq_def]
    dsimp only
    rw [if_pos rfl]
    cases l.dropWhile isSpace with
    | nil => exact (if_neg (fun h => nomatch h.2.1)).symm
    | cons d v => simp only [head?_cons, some.injEq, tail_cons]
  | @char c k hq hb _ ih =>
    rw [cons_append, getLoop.eq_def]
    dsimp only
    rw [if_neg hq, if_neg hb, ih, append_assoc]
    rfl
  | @pair e k _ ih =>
    rw [cons_append, cons_append, getLoop.eq_def]
    dsimp only
    rw [if_neg (by decide), if_pos rfl, ih, append_assoc]
    rfl

/-- A byte that is neither a bracket nor a quote. -/
theorem getLoop_plain {c : UInt8} (ho : opens c = false) (hc : closes c = false)
    (hq : c ≠ quote) (l : Bytes) :
    getLoop key cap none depth (c :: l) = getLoop key cap none depth l := by
  rw [getLoop, if_neg (by rw [ho]; decide), if_neg (by rw [hc]; decide), if_neg hq]

theorem getLoop_quote (l : Bytes) :
    getLoop key cap none depth (quote :: l) = getLoop key cap (some []) depth l := by
  rw [getLoop, if_neg (by decide), if_neg (by decide), if_pos rfl]

/-- A string that is no name here. -/
theorem getLoop_string (hk : Raw k) (h : ¬ (depth = 1 ∧ (l.dropWhile isSpace).head? = some colon)) :
    getLoop key cap none depth (quote :: (k ++ quote :: l)) = getLoop key cap none depth l := by
  rw [getLoop_quote, getLoop_raw hk, if_neg (fun hname => h ⟨hname.1, hname.2.1⟩)]

/-- Inside of a value of the object nothing is found. -/
theorem getLoop_balanced (hv : Balanced v) (hdepth : 2 ≤ depth) (l : Bytes) :
    getLoop key cap none depth (v ++ l) = getLoop key cap none depth l := by
  induction hv generalizing depth l with
  | nil => rfl
  | plain ho hc hq _ ih => rw [cons_append, getLoop_plain ho hc hq, ih hdepth]
  | string hk _ ih =>
    rw [cons_append, append_assoc, cons_append, getLoop_string hk (by omega), ih hdepth]
  | nest ho hc _ _ ihl ihm =>
    have hclose := closes_opens hc
    rw [cons_append, append_assoc, cons_append, getLoop, if_pos ho, ihl (by omega), getLoop,
      if_neg (by rw [hclose.1]; decide), if_pos hc, if_neg (by omega),
      Nat.add_sub_cancel, ihm hdepth]

theorem getLoop_word (hk : ∀ c ∈ k, opens c = false ∧ closes c = false ∧ c ≠ quote) (l : Bytes) :
    getLoop key cap none depth (k ++ l) = getLoop key cap none depth l := by
  induction k with
  | nil => rfl
  | cons c k ih =>
    obtain ⟨ho, hc, hq⟩ := hk c mem_cons_self
    rw [cons_append, getLoop_plain ho hc hq]
    exact ih fun x hx => hk x (mem_cons_of_mem c hx)

theorem getLoop_ws (hk : Ws k) (l : Bytes) :
    getLoop key cap none depth (k ++ l) = getLoop key cap none depth l :=
  getLoop_word (fun c hc => bracket_facts.2.1 c (hk c hc)) l

/-- **A value of the object is passed by**, where no colon follows. -/
theorem getLoop_value (hv : Shape v) (hl : (l.dropWhile isSpace).head? ≠ some colon) :
    getLoop key cap none 1 (v ++ l) = getLoop key cap none 1 l := by
  cases hv with
  | string hk =>
    rw [cons_append, append_assoc, singleton_append]
    exact getLoop_string hk (fun h => hl h.2)
  | word hw => exact getLoop_word hw l
  | nest ho hc hm =>
    have hclose := closes_opens hc
    rw [cons_append, append_assoc, singleton_append, getLoop, if_pos ho,
      getLoop_balanced hm (by omega), getLoop, if_neg (by rw [hclose.1]; decide), if_pos hc,
      if_neg (by omega)]

end scan

/-! ### Members -/

section fields

variable {key : Bytes} {cap : ℕ}

/-- What ends a member: the comma in front of the next, or the brace of the object. -/
theorem fieldValue_field (hcap : 1 < cap) (f : Field) {c : UInt8} (hc : ends c = true) (l : Bytes) :
    fieldValue cap (f.behind ++ c :: l) = some (shown cap f.value) := by
  obtain ⟨-, -, hb, hpost⟩ := f.isWs
  obtain ⟨d, n, hvalue⟩ := f.isValue
  obtain ⟨e, v, hv, hspace, hstring, hother⟩ := Value.begins hvalue
  have hbehind : f.behind ++ c :: l = f.b ++ e :: (v ++ (f.post ++ c :: l)) := by
    unfold Field.behind
    rw [hv]
    simp only [append_assoc, cons_append]
  unfold fieldValue
  rw [hbehind, dropWhile_ws hb, dropWhile_cons_of_neg (by rw [hspace]; decide), hv]
  unfold shown
  dsimp only
  by_cases hq : e = quote
  · obtain ⟨k, hk, rfl⟩ := hstring hq
    rw [if_pos hq, if_pos hq, append_assoc, singleton_append, jsonString_chars hk, dropLast_concat]
  · rw [if_neg hq, if_neg hq]
    -- the value is cut where it ends, if not before
    have hfirst : ((f.post ++ c :: l).takeWhile (!ends ·)) = [] := by
      cases hp : f.post with
      | nil => exact takeWhile_cons_of_neg (by rw [hc]; decide)
      | cons x p =>
        have hx : isWs x = true := hpost x (by rw [hp]; exact mem_cons_self)
        refine takeWhile_cons_of_neg ?_
        unfold ends
        rw [hx]
        simp
    have htext : (e :: (v ++ (f.post ++ c :: l))).takeWhile (!ends ·) =
        (e :: v).takeWhile (!ends ·) := by
      rw [← cons_append, takeWhile_append, hfirst, append_nil]
      split
      · next hall => exact ((List.takeWhile_prefix _).eq_of_length hall).symm
      · rfl
    simp only [strchr_ends]
    rw [htext]
    refine if_neg ?_
    rw [takeWhile_cons_of_pos (by rw [hother hq]; rfl)]
    obtain ⟨cap, rfl⟩ : ∃ m, cap = m + 2 := ⟨cap - 2, by omega⟩
    exact cons_ne_nil _ _

/-- **One member**: it is the one that is looked for, or is passed by. -/
theorem getLoop_field (hcap : 1 < cap) (f : Field) {c : UInt8}
    (hc : c = comma ∨ c = rbrace) (l : Bytes) :
    getLoop key cap none 1 (f.text ++ c :: l) =
      if f.name = key then some (shown cap f.value) else getLoop key cap none 1 (c :: l) := by
  obtain ⟨hpre, ha, hb, hpost⟩ := f.isWs
  obtain ⟨d, n, hvalue⟩ := f.isValue
  have hend : ends c = true ∧ isSpace c = false ∧ c ≠ colon := by
    rcases hc with rfl | rfl
    · decide
    · decide
  have hcolon : (f.a ++ colon :: (f.behind ++ c :: l)).dropWhile isSpace =
      colon :: (f.behind ++ c :: l) := by
    rw [dropWhile_ws ha]
    rfl
  have htext : f.text ++ c :: l =
      f.pre ++ quote :: (f.name ++ quote :: (f.a ++ colon :: (f.behind ++ c :: l))) := by
    unfold Field.text
    simp only [append_assoc, cons_append]
  rw [htext, getLoop_ws hpre, getLoop_quote, getLoop_raw f.isName.raw, hcolon]
  by_cases hname : f.name = key
  · rw [if_pos ⟨rfl, rfl, hname⟩, if_pos hname]
    exact fieldValue_field hcap f hend.1 l
  · rw [if_neg (fun h => hname h.2.2), if_neg hname, getLoop_ws ha,
      getLoop_plain rfl rfl (by decide)]
    have hbehind : f.behind ++ c :: l = f.b ++ (f.value ++ (f.post ++ c :: l)) := by
      unfold Field.behind
      simp only [append_assoc]
    have hnext : ((f.post ++ c :: l).dropWhile isSpace).head? ≠ some colon := by
      rw [dropWhile_ws hpost, dropWhile_cons_of_neg (by rw [hend.2.1]; decide)]
      exact fun heq => hend.2.2 (some.inj heq)
    rw [hbehind, getLoop_ws hb, getLoop_value hvalue.shape hnext, getLoop_ws hpost]

/-- The members of an object: the first of the name is found. -/
theorem getLoop_fields (hcap : 1 < cap) (fs : List Field) (l : Bytes) :
    getLoop key cap none 1 (commas (fs.map Field.text) ++ rbrace :: l) =
      (fs.find? fun f => f.name = key).map fun f => shown cap f.value := by
  have hend : getLoop key cap none 1 (rbrace :: l) = none := rfl
  induction fs with
  | nil => exact hend
  | cons f fs ih =>
    have hmember : ∀ {c : UInt8} {m}, c = comma ∨ c = rbrace →
        getLoop key cap none 1 (c :: m) =
        (fs.find? fun f => f.name = key).map (fun f => shown cap f.value) →
        getLoop key cap none 1 (f.text ++ c :: m) =
          ((f :: fs).find? fun f => f.name = key).map fun f => shown cap f.value := by
      intro c m hc hm
      rw [getLoop_field hcap f hc]
      by_cases hname : f.name = key
      · have hfirst : (f :: fs).find? (fun f => f.name = key) = some f :=
          find?_cons_of_pos (decide_eq_true hname)
        rw [if_pos hname, hfirst]
        rfl
      · have hlater : (f :: fs).find? (fun f => f.name = key) = fs.find? fun f => f.name = key :=
          find?_cons_of_neg fun h => hname (of_decide_eq_true h)
        rw [if_neg hname, hlater, hm]
    cases fs with
    | nil => exact hmember (.inr rfl) hend
    | cons g fs =>
      have htext : commas ((f :: g :: fs).map Field.text) ++ rbrace :: l =
          f.text ++ comma :: (commas ((g :: fs).map Field.text) ++ rbrace :: l) := by
        rw [map_cons, map_cons, commas, append_assoc]
        rfl
      rw [htext]
      refine hmember (.inl rfl) ?_
      rw [getLoop_plain rfl rfl (by decide)]
      exact ih

/-- **`json_get` reads the first member of the name**, whatever else is in the object. -/
theorem jsonGet_release (hcap : 1 < cap) (r : Release) : jsonGet r.text key cap =
    (r.fields.find? fun f => f.name = key).map fun f => shown cap f.value := by
  have hopen : jsonGet r.text key cap = getLoop key cap none 1 (r.inner ++ [rbrace]) := rfl
  have hinner : r.inner ++ [rbrace] =
      r.gap ++ (commas (r.fields.map Field.text) ++ rbrace :: []) := by
    unfold Release.inner
    rw [append_assoc]
  rw [hopen, hinner, getLoop_ws r.isWs.2.1]
  exact getLoop_fields hcap r.fields []

end fields

/-! ### The version of a tag -/

theorem versionOk_iff (t : Bytes) : versionOk t = true ↔ Proper t := by
  unfold versionOk Proper
  simp [and_assoc]

/-- A `-beta` is cut off where it is the only one, at the end. -/
theorem cutBeta_eq (v : Bytes) : cutBeta v =
    if text "-beta" <:+ v ∧ ¬ text "-beta" <:+: v.dropLast then v.take (v.length - 5) else v := by
  have hlen : (text "-beta").length = 5 := by decide +kernel
  induction v with
  | nil => split <;> rfl
  | cons c l ih =>
    rw [cutBeta]
    by_cases hhere : text "-beta" <+: c :: l
    · rw [if_pos hhere]
      by_cases hshort : l.length = 4
      · -- it is the whole
        have hall : text "-beta" = c :: l := hhere.eq_of_length (by rw [hlen, length_cons, hshort])
        have hnone : ¬ text "-beta" <:+: (c :: l).dropLast := by
          intro hin
          have hle := hin.length_le
          rw [hlen, length_dropLast, length_cons] at hle
          omega
        rw [if_pos hshort, if_pos ⟨hall ▸ suffix_refl _, hnone⟩, length_cons, hshort]
        rfl
      · -- more stands behind it
        have hsome : text "-beta" <:+: (c :: l).dropLast := by
          obtain ⟨m, hm⟩ := hhere
          have hne : m ≠ [] := by
            rintro rfl
            have heq := congrArg length hm
            rw [append_nil, hlen, length_cons] at heq
            omega
          rw [← hm, dropLast_append_of_ne_nil hne]
          exact (prefix_append _ _).isInfix
        rw [if_neg hshort, if_neg (fun h => h.2 hsome)]
    · rw [if_neg hhere, ih]
      have hsuffix : text "-beta" <:+ c :: l ↔ text "-beta" <:+ l := by
        rw [suffix_cons_iff]
        exact or_iff_right fun heq => hhere (heq ▸ prefix_refl _)
      have hinfix : text "-beta" <:+: (c :: l).dropLast ↔ text "-beta" <:+: l.dropLast := by
        cases l with
        | nil => rfl
        | cons d l =>
          rw [dropLast_cons_of_ne_nil (cons_ne_nil d l), infix_cons_iff]
          refine or_iff_right fun h => hhere (h.trans ?_)
          exact (prefix_cons_inj c).mpr (List.dropLast_prefix _)
      simp only [hsuffix, hinfix]
      split
      · next h =>
        have hle := h.1.length_le
        have hsub : (c :: l).length - 5 = l.length - 5 + 1 := by
          rw [length_cons]
          omega
        rw [hsub, take_succ_cons]
      · rfl

theorem tagVersion_eq {t : Bytes} (h : Proper t) : tagVersion t 64 = versionOf t := by
  have hlen : (if t.head? = some 0x76 then t.tail else t).length ≤ 63 := by
    have hle := h.2.1
    split
    · rw [length_tail]
      omega
    · omega
  unfold tagVersion versionOf
  rw [take_of_length_le hlen, cutBeta_eq]

/-- **The version that a look takes of an element.** -/
theorem elementVersion_release (r : Release) : elementVersion r.text = r.version := by
  have hget : jsonGet r.text (text "tag_name") 64 = r.shownTag := jsonGet_release (by decide) r
  unfold elementVersion Release.version
  rw [hget]
  cases r.shownTag with
  | none => rfl
  | some t =>
    dsimp only
    rw [filter_some]
    by_cases ht : Proper t
    · rw [if_pos ((versionOk_iff t).mpr ht), if_pos (decide_eq_true ht), tagVersion_eq ht]
      rfl
    · rw [if_neg (fun hok => ht ((versionOk_iff t).mp hok)),
        if_neg (fun hok => ht (of_decide_eq_true hok))]
      rfl

end Hassmic.Update
