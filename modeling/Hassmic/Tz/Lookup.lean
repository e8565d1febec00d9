import Hassmic.Lib.Checked
import Hassmic.Lib.Text

/-!
# A time zone by its rule

Home Assistant says the rule of its zone, as a POSIX TZ string, and the Echo looks for a zone with
that rule in its own time zone data: one file with a header, an index of entries and the data of
each zone, which ends with the rule between two newlines.

Numbers are big-endian and of 32 bits, and a `long` has 32 bits too, so an offset from `2 ^ 31` on
is negative and cannot be sought.

## Main definitions

* `area`, `listed`, `rank` — how usual a name is.
* `footer` — the rule at the end of a zone's data.
* `entryAt` — an entry of the index, with its rule.
* `tzLookup` — the lookup.
-/

namespace Hassmic.Tz

open Byte Checked Text

/-- A buffer up to its first NUL. -/
def cString (l : Bytes) : Bytes := l.takeWhile (· ≠ nul)

/-! ### Names -/

/-- The areas, the most usual first. -/
def areas : List Bytes :=
  [text "Europe/", text "America/", text "Asia/", text "Australia/", text "Africa/",
    text "Pacific/", text "Atlantic/", text "Indian/", text "Antarctica/"]

def area (n : Bytes) : ℕ :=
  match areas.findIdx? (· <+: n) with
  | some i => i
  | none => if n.contains slash && !(text "Etc/" <+: n : Bool) then 20 else 30

/-- The byte before a position. -/
def byteBefore (b : Bytes) (p : ℕ) : Except Fault UInt8 := if 0 < p then peek b (p - 1) else .ok nul

/-- The loop of `listed`, from the position `p` on: a name between tabs, or at the end of a line. -/
def listedLoop (tab n : Bytes) : ℕ → ℕ → Except Fault Bool
  | 0, _ => .ok false
  | f + 1, p =>
      match strstr n ((cString tab).drop p) with
      | none => .ok false
      | some d => do
          let before ← byteBefore tab (p + d)
          let behind ← peek tab (p + d + n.length)
          if before = Byte.tab ∧ (behind = Byte.tab ∨ behind = lf ∨ behind = nul) then .ok true
          else listedLoop tab n f (p + d + n.length)

/-- `zone.tab` lists the name. -/
def listed (tab n : Bytes) : Except Fault Bool := listedLoop tab n (tab.length + 1) 0

/-- Lower is more usual. -/
def rank (tab : Option Bytes) (n : Bytes) : Except Fault ℕ :=
  match tab with
  | none => .ok (area n)
  | some tab => do
      let l ← listed tab n
      .ok (area n + if l then 0 else 40)

/-! ### The file -/

def nameLen : ℕ := 40
def entryLen : ℕ := 52
def footerMax : ℕ := 128
def zonetabMax : ℕ := 2 ^ 20

def ofBe (l : Bytes) : ℕ := l.foldl (fun v c => 256 * v + c.toNat) 0

def be32 (b : Bytes) (i : ℕ) : Except Fault ℕ := do
  let p ← slice b i 4
  .ok (ofBe p)

/-- An unsigned number of 32 bits as a `long`. -/
def long (v : ℕ) : ℤ := if v % 2 ^ 32 < 2 ^ 31 then v % 2 ^ 32 else v % 2 ^ 32 - 2 ^ 32

/-- `fseek` and `fread` of `n` bytes: none if there are fewer, or the offset is negative. -/
def readAt (file : Bytes) (off : ℤ) (n : ℕ) : Option Bytes :=
  if off < 0 then none
  else
    let b := (file.drop off.toNat).take n
    if b.length = n then some b else none

/-- The newline before the position `i`: the position behind it, 0 if there is none. -/
def lineStart (b : Bytes) : ℕ → Except Fault ℕ
  | 0 => .ok 0
  | i + 1 => do
      let c ← peek b i
      if c = lf then .ok (i + 1) else lineStart b i

/-- `footer`: the rule at the end of `len` bytes from `off` on. -/
def footer (file : Bytes) (off len : ℕ) : Except Fault (Option Bytes) :=
  let n := min len (footerMax + 2)
  if len < 2 then .ok none
  else
    match readAt file (long (off + (len - n))) n with
    | none => .ok none
    | some b => do
        let last ← peek b (n - 1)
        if last ≠ lf then .ok none
        else do
          let i ← lineStart b (n - 1)
          if i = 0 then .ok none
          else do
            let f ← slice b i (n - 1 - i)
            room (f.length + 1) (footerMax + 1)
            .ok (some (cString f))

/-- The entry at `pos`: none if it cannot be read, and no zone if it has no name, no rule, or its
data is not where data is. -/
def entryAt (file : Bytes) (data zt pos : ℕ) : Except Fault (Option (Option (Bytes × Bytes))) :=
  match readAt file (long pos) entryLen with
  | none => .ok none
  | some e => do
      let name ← slice e 0 nameLen
      let start ← be32 e nameLen
      let len ← be32 e (nameLen + 4)
      if cString name = [] ∨ zt - data < start ∨ zt - data - start < len then .ok (some none)
      else do
        let f ← footer file (data + start) len
        .ok (some (f.map (cString name, ·)))

/-- The best zone so far. -/
structure Best where
  found : Bool := false
  rank : ℕ := 999
  name : Bytes := []

/-- A zone with the rule. -/
def Best.step (b : Best) (r : ℕ) (name : Bytes) : Best :=
  if r < b.rank then ⟨true, r, name⟩ else { b with found := true }

/-- The loop over the index, from the entry at `pos` on. -/
def lookupLoop (file : Bytes) (data zt : ℕ) (tab : Option Bytes) (posix : Bytes)
    (cur : Option Bytes) :
    ℕ → ℕ → Best → Except Fault Best
  | 0, _, b => .ok b
  | k + 1, pos, b =>
      if pos < data then do
        let e ← entryAt file data zt pos
        match e with
        | none => .ok b
        | some none => lookupLoop file data zt tab posix cur k (pos + entryLen) b
        | some (some (name, f)) =>
            if f ≠ posix then lookupLoop file data zt tab posix cur k (pos + entryLen) b
            else if cur = some name then .ok { b with found := true, name := name }
            else do
              let r ← rank tab name
              lookupLoop file data zt tab posix cur k (pos + entryLen) (b.step r name)
      else .ok b

/-- The last part of the file with a NUL behind it, unless it is empty or too long. -/
def zonetab (file : Bytes) (zt : ℕ) : Option Bytes :=
  let size : ℤ := if file.length < 2 ^ 31 then file.length else -1
  let tl := (size - zt).toNat
  if 0 < tl ∧ tl ≤ zonetabMax ∧ zt < 2 ^ 31 then some ((file.drop zt).take tl ++ [nul]) else none

/-- `tz_lookup`, into a buffer of `cap` bytes. -/
def tzLookup (file posix : Bytes) (cur : Option Bytes) (cap : ℕ) : Except Fault (Option Bytes) :=
  match readAt file 0 24 with
  | none => .ok none
  | some h => do
      let magic ← slice h 0 6
      let end_ ← peek h 11
      if magic ≠ text "tzdata" ∨ end_ ≠ nul then .ok none
      else do
        let idx ← be32 h 12
        let data ← be32 h 16
        let zt ← be32 h 20
        if data < idx ∨ zt < data ∨ (data - idx) % entryLen ≠ 0 then .ok none
        else do
          let b ← lookupLoop file data zt (zonetab file zt) posix cur
            ((data - idx) / entryLen + 1) idx {}
          if !b.found ∨ cap ≤ b.name.length then .ok none
          else do
            room (b.name.length + 1) cap
            .ok (some b.name)

end Hassmic.Tz
