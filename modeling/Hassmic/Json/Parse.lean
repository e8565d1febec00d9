import Hassmic.Lib.Bytes

/-!
# The JSON parser

`json.c` parses a document once into an array of tokens in document order, by
recursive descent with an explicit bound on the depth.  The parser's cursor
`struct p` is `P`: the text, the position `i`, and the token array with its
capacity.  Every access to the text goes through `P.peek` or `P.read`, which stop
with `Stop.outside` beyond the `n` bytes of the text, so that staying inside
them is something to prove; the C loops take a number of turns and stop with
`Stop.endless` when it is used up, which is likewise to be excluded.

## Main definitions

* `Jtok`, `JsonDoc` — a token and a parsed document, `struct jtok` and `struct json`.
* `tok`, `string`, `value` — the descent.
* `jsonParse` — the whole document.
-/

namespace Hassmic.Json

open Byte

/-- The depth limit, `JSON_DEPTH`. -/
def jsonDepth : ℕ := 64

/-- The limit of the token array, `JSON_MAX_TOKENS`. -/
def jsonMaxTokens : ℕ := 256 * 2 ^ 10

/-- What a token is: `J_OBJ` to `J_NULL`. -/
inductive JType
  | obj | arr | str | num | true | false | null
  deriving DecidableEq

/-- A value: its text `[start, end)` in the document (a string's without the
quotes), and the token after it and all it holds.  `next` is `none` where the
source has `-1`: a container whose end was not seen yet. -/
structure Jtok where
  type : JType
  start : ℕ
  end_ : ℕ
  next : Option ℕ

/-- A capacity the token array can have: none yet, or `256` doubled up to ten
times. -/
abbrev Cap := {c : ℕ // c = 0 ∨ ∃ k ≤ 10, c = 256 * 2 ^ k}

/-- The next larger capacity, none from `jsonMaxTokens` on. -/
def Cap.grow (c : Cap) : Option Cap :=
  if h : jsonMaxTokens ≤ c.1 then none
  else some ⟨if c.1 = 0 then 256 else c.1 * 2, by
    rcases c with ⟨c, rfl | ⟨k, hk, rfl⟩⟩
    · exact Or.inr ⟨0, by omega, rfl⟩
    · right
      have hlt : k < 10 := by
        rcases Nat.lt_or_ge k 10 with hlt | hge
        · exact hlt
        · have : k = 10 := by omega
          subst this
          exact absurd le_rfl h
      refine ⟨k + 1, hlt, ?_⟩
      have : 256 * 2 ^ k ≠ 0 := by positivity
      rw [if_neg this, pow_succ]
      ring⟩

/-- A document: its text, its tokens (`j->n` is their number), and the room the
token array has. -/
structure JsonDoc where
  s : Bytes
  t : List Jtok
  cap : Cap

/-- A document nothing was parsed into. -/
def JsonDoc.empty : JsonDoc := ⟨[], [], ⟨0, Or.inl rfl⟩⟩

/-- Why a parse ends early. -/
inductive Stop
  /-- The document is refused: the source returns `-1`. -/
  | refused
  /-- A byte beyond the end of the text was read. -/
  | outside
  /-- A loop did not end in the turns it was given. -/
  | endless
  deriving DecidableEq

/-- The parser's cursor, `struct p` with the parts of `struct json` it changes. -/
structure P where
  s : Bytes
  i : ℕ
  t : List Jtok
  cap : Cap

namespace P

/-- The length of the text. -/
def n (p : P) : ℕ := p.s.length

/-- `p->i += k`. -/
def adv (p : P) (k : ℕ) : P := { p with i := p.i + k }

/-- The byte `p->s[p->i + k]`. -/
def peek (p : P) (k : ℕ) : Except Stop UInt8 :=
  match p.s[p.i + k]? with
  | some c => .ok c
  | none => .error .outside

/-- The `l` bytes at `p->s + p->i`, all of which `memcmp` may read. -/
def read (p : P) (l : ℕ) : Except Stop Bytes :=
  if p.i + l ≤ p.n then .ok ((p.s.drop p.i).take l) else .error .outside

end P

/-! ### Characters -/

/-- White space, the bytes `ws` passes over. -/
def isWs (c : UInt8) : Bool := c == space || c == tab || c == lf || c == cr

/-- A hexadecimal digit, in either case. -/
def isHex (c : UInt8) : Bool :=
  isDigit c || (0x61 ≤ c && c ≤ 0x66) || (0x41 ≤ c && c ≤ 0x46)

/-- `strchr(set, c) != NULL`.  The terminating NUL is part of the string `strchr`
searches, so a NUL is always found. -/
def strchr (set : Bytes) (c : UInt8) : Bool := (set ++ [nul]).contains c

/-- The characters of an escape: `"\"\\/bfnrt"`. -/
def escapes : Bytes := [quote, backslash, slash, 0x62, 0x66, 0x6e, 0x72, 0x74]

/-- The characters of a number: `"0123456789+-.eE"`. -/
def numerals : Bytes :=
  [0x30, 0x31, 0x32, 0x33, 0x34, 0x35, 0x36, 0x37, 0x38, 0x39, plus, minus, dot, 0x65, 0x45]

/-! ### The descent -/

/-- `while (p->i < p->n && f(p->s[p->i])) p->i++`. -/
def skipWhile (f : UInt8 → Bool) : ℕ → P → Except Stop P
  | 0, _ => .error .endless
  | k + 1, p =>
      if p.i < p.n then do
        let c ← p.peek 0
        if f c then skipWhile f k (p.adv 1) else .ok p
      else .ok p

/-- Passes over white space. -/
def ws (p : P) : Except Stop P := skipWhile isWs (p.n - p.i + 1) p

/-- A new token at the end of the array, which grows when it is full. -/
def tok (p : P) (type : JType) (start : ℕ) : Except Stop (ℕ × P) :=
  let put (cap : Cap) : Except Stop (ℕ × P) :=
    .ok (p.t.length, { p with t := p.t ++ [⟨type, start, start, none⟩], cap := cap })
  if p.t.length = p.cap.1 then
    match p.cap.grow with
    | none => .error .refused
    | some cap => put cap
  else put p.cap

/-- Fills in `end` and `next` of the token `t`. -/
def close (p : P) (t e next : ℕ) : P :=
  { p with t := p.t.modify t fun k => { k with end_ := e, next := some next } }

/-- Whether the `m` bytes from `p->s + p->i + k` on are hexadecimal digits; it
stops at the first that is not. -/
def hexRun (p : P) : ℕ → ℕ → Except Stop Bool
  | 0, _ => .ok true
  | m + 1, k => do
      let c ← p.peek k
      if isHex c then hexRun p m (k + 1) else .ok false

/-- `hex4(p->s + p->i + k)`. -/
def hex4 (p : P) (k : ℕ) : Except Stop Bool := hexRun p 4 k

/-- The loop of `string` over the characters up to the closing quote or the end
of the text. -/
def stringLoop : ℕ → P → Except Stop P
  | 0, _ => .error .endless
  | k + 1, p =>
      if p.i < p.n then do
        let c ← p.peek 0
        if c = quote then .ok p
        else if c < 0x20 then .error .refused
        else if c = backslash then
          if p.n ≤ p.i + 1 then .error .refused
          else do
            let e ← p.peek 1
            if e = 0x75 then
              if p.n < p.i + 6 then .error .refused
              else do
                let h ← hex4 p 2
                if h then stringLoop k (p.adv 6) else .error .refused
            else if strchr escapes e then stringLoop k (p.adv 2)
            else .error .refused
        else stringLoop k (p.adv 1)
      else .ok p

/-- A string, the cursor at its opening quote. -/
def string (p : P) : Except Stop (ℕ × P) := do
  let q := p.adv 1
  let r ← stringLoop (q.n - q.i + 1) q
  if r.n ≤ r.i then .error .refused
  else do
    let (t, r) ← tok r .str q.i
    .ok (t, (close r t r.i (t + 1)).adv 1)

/-- The name of a member up to and with its colon. -/
def key (p : P) : Except Stop P := do
  if p.n ≤ p.i then .error .refused
  else do
    let c ← p.peek 0
    if c ≠ quote then .error .refused
    else do
      let (_, p) ← string p
      let p ← ws p
      if p.n ≤ p.i then .error .refused
      else do
        let c ← p.peek 0
        if c ≠ colon then .error .refused else .ok (p.adv 1)

/-- The bracket that closes a container. -/
def closing (isObj : Bool) : UInt8 := if isObj then rbrace else rbracket

/-- The comma before an item that is not the first; `c` is the byte at the cursor. -/
def separator (first : Bool) (c : UInt8) (p : P) : Except Stop P :=
  if first then .ok p else if c ≠ comma then .error .refused else ws (p.adv 1)

/-- One item of a container: a value, in an object with its name. -/
def item (isObj : Bool) (val : P → Except Stop (ℕ × P)) (p : P) : Except Stop P := do
  let p ← bif isObj then key p else .ok p
  let (_, p) ← val p
  .ok p

/-- The loop over what a container holds, up to and with its closing bracket;
`val` reads one value a level deeper. -/
def items (isObj : Bool) (val : P → Except Stop (ℕ × P)) : ℕ → Bool → P → Except Stop P
  | 0, _, _ => .error .endless
  | k + 1, first, p => do
      let p ← ws p
      if p.n ≤ p.i then .error .refused
      else do
        let c ← p.peek 0
        if c = closing isObj then .ok (p.adv 1)
        else do
          let p ← separator first c p
          let p ← item isObj val p
          items isObj val k false p

/-- An object or an array, the cursor at its opening bracket. -/
def container (isObj : Bool) (val : P → Except Stop (ℕ × P)) (p : P) :
    Except Stop (ℕ × P) := do
  let (t, p) ← tok p (if isObj then .obj else .arr) p.i
  let p := p.adv 1
  let p ← items isObj val (p.n - p.i + 1) true p
  .ok (t, close p t p.i p.t.length)

/-- A number, the cursor at its first character. -/
def number (p : P) : Except Stop (ℕ × P) := do
  let start := p.i
  let p ← skipWhile (strchr numerals) (p.n - p.i + 1) p
  let (t, p) ← tok p .num start
  .ok (t, close p t p.i (t + 1))

/-- The names of the three literals. -/
def words : List (Bytes × JType) :=
  [([0x74, 0x72, 0x75, 0x65], .true), ([0x66, 0x61, 0x6c, 0x73, 0x65], .false),
    ([0x6e, 0x75, 0x6c, 0x6c], .null)]

/-- The loop over `words`. -/
def word (p : P) : List (Bytes × JType) → Except Stop (ℕ × P)
  | [] => .error .refused
  | (w, type) :: more =>
      if w.length ≤ p.n - p.i then do
        let l ← p.read w.length
        if l = w then do
          let (t, p) ← tok p type p.i
          let p := p.adv w.length
          .ok (t, close p t p.i (t + 1))
        else word p more
      else word p more

/-- What a value is, from its first character `c`; `val` reads one value a level
deeper. -/
def branch (val : P → Except Stop (ℕ × P)) (c : UInt8) (p : P) : Except Stop (ℕ × P) :=
  if c = quote then string p
  else if c = lbrace ∨ c = lbracket then container (c = lbrace) val p
  else if isDigit c ∨ c = minus then number p
  else word p words

/-- A value and the white space before it.  The first argument counts the depths
that are left: `JSON_DEPTH + 1 - depth`. -/
def value : ℕ → P → Except Stop (ℕ × P)
  | 0, p => do
      let _ ← ws p
      .error .refused
  | d + 1, p => do
      let p ← ws p
      if p.n ≤ p.i then .error .refused
      else do
        let c ← p.peek 0
        branch (value d) c p

/-- The longest text taken, `0x3FFFFFFF`. -/
def jsonMaxLen : ℕ := 0x3FFFFFFF

/-- Parses the text `s`; `j` is the document the token array is taken over from.
A NUL ends the document before its `len` bytes do. -/
def jsonParse (j : JsonDoc) (s : Bytes) : Except Stop JsonDoc :=
  if jsonMaxLen < s.length then .error .refused
  else do
    let (_, p) ← value (jsonDepth + 1) ⟨s, 0, [], j.cap⟩
    let p ← ws p
    if p.i = p.n then .ok ⟨s, p.t, p.cap⟩
    else if p.i < p.n then do
      let c ← p.peek 0
      if c = nul then .ok ⟨s, p.t, p.cap⟩ else .error .refused
    else .error .refused

end Hassmic.Json
