import Hassmic.Mww.Manifest
import Hassmic.Arb.StateFile

/-!
# Staging a copy of an artifact

A set of files that comes from another Echo is staged before it is installed: the list of its files
comes first, with their sizes, and makes the folders and the files; then pieces of the files come,
in any order.  The list is kept beside the folder it is staged in, and read again for each piece.

A `long` has 32 bits.  Which files can be made, opened and removed is up to the system.

## Main definitions

* `goodName`, `goodPath` — the files of a set.
* `resolve` — the folder an artifact is staged in.
* `fileList`, `total` — the list, and what its sizes come to.
* `Disk`, `Os` — what is there, and what the system lets be done.
* `artBegin`, `artChunk` — a list that comes, and a piece.
-/

namespace Hassmic.Artifacts

open Byte Text Function

abbrev maxFiles : ℕ := 128
abbrev maxDepth : ℕ := 2
abbrev maxName : ℕ := 127
abbrev maxTotal : ℤ := 96 * 2 ^ 20
abbrev margin : ℤ := 8 * 2 ^ 20

/-! ### Names -/

/-- `good_name`. -/
def goodName (s : Bytes) : Bool :=
  s ≠ [] && s.length ≤ 63 && s.head?.all alnum && s.all fun c =>
    alnum c || c == dot || c == 0x5f || c == minus

/-- `good_path`: each part between the slashes is a good name. -/
def goodPath (s : Bytes) : Bool :=
  s.length ≤ maxName && (s.splitOn slash).length ≤ maxDepth + 1 && (s.splitOn slash).all goodName

/-- `snprintf` into `n` bytes. -/
def cut (n : ℕ) (s : Bytes) : Bytes := s.take (n - 1)

/-- The folder in `artifacts` that an artifact is staged in. -/
def stageName (id : Bytes) : Option Bytes :=
  if text "wake:" <+: id ∧ goodName (id.drop 5) then some (text "wake." ++ id.drop 5)
  else if id = text "sound" then some (text "sound")
  else if text "mww:" <+: id ∧ Mww.goodId (id.drop 4) then some (text "mww." ++ id.drop 4)
  else if id = text "whisper" then some (text "whisper")
  else none

/-- `resolve`, the folder an artifact is staged in. -/
def resolve (state id : Bytes) : Option Bytes :=
  (stageName id).map fun name => cut 300 (state ++ text "/artifacts/" ++ name)

/-! ### The list of files -/

/-- A number as a `long`. -/
def long (v : ℤ) : ℤ := (v + 2 ^ 31) % 2 ^ 32 - 2 ^ 31

/-- `%79s` and its like: a word of at most `n` characters, and the rest. -/
def scanWord (n : ℕ) (l : Bytes) : Option (Bytes × Bytes) :=
  let l := l.dropWhile isSpace
  let w := (l.takeWhile fun c => !isSpace c).take n
  if w = [] then none else some (w, l.drop w.length)

/-- `%ld`; `wide` is what the library makes of a number that is no `long`. -/
def scanLong (wide : ℤ → ℤ) (l : Bytes) : Option ℤ :=
  (integer 10 l).map fun r =>
    let v : ℤ := if r.1 then -r.2.1 else r.2.1
    if -2 ^ 31 ≤ v ∧ v < 2 ^ 31 then v else long (wide v)

/-- A file of a list. -/
structure Entry where
  name : Bytes
  size : ℤ

section list

variable (wide : ℤ → ℤ)

/-- A name of at most `n` characters, and a size. -/
def scanEntry (n : ℕ) (line : Bytes) : Option Entry := do
  let (name, l) ← scanWord n line
  let size ← scanLong wide l
  some ⟨name, size⟩

/-- One line of the list. -/
def addLine (fs : List Entry) (line : Bytes) : Except Bytes (List Entry) :=
  if line = [] then .ok fs
  else
    match scanEntry wide 159 line with
    | none => .error (text "bad file list")
    | some f =>
        if !goodPath f.name || f.size < 0 || fs.length = maxFiles then .error (text "bad file list")
        else if fs.any fun g => g.name = f.name then .error (text "a file twice")
        else .ok (fs ++ [⟨cut (maxName + 1) f.name, f.size⟩])

/-- The list of files. -/
def fileList (l : Bytes) : Except Bytes (List Entry) :=
  ((l.splitOn lf).map (cut 192)).foldlM (addLine wide) []

/-- What the sizes come to, in a `long`. -/
def total (fs : List Entry) : ℤ := fs.foldl (fun t f => long (t + f.size)) 0

/-- The string in a buffer. -/
def str (l : Bytes) : Bytes := l.takeWhile (· ≠ nul)

/-- The first line: the folder the artifact is staged in, its digest, and the rest. -/
def heading (state spec : Bytes) : Option (Bytes × Bytes × Bytes) := do
  let (id, l) ← scanWord 79 (str spec)
  let (dh, l) ← scanWord 79 l
  if dh.length = 64 then (resolve state id).map fun stage => (stage, dh, l) else none

/-! ### The list on the disk -/

/-- What is written of the list. -/
def expectText (dh : Bytes) (fs : List Entry) : Bytes :=
  dh ++ [lf] ++ fs.flatMap fun f => f.name ++ [space] ++ decimal f.size ++ [lf]

/-- The lines `fgets` gives into `char line[192]`, at most `k`. -/
def linesLoop : ℕ → Bytes → List Bytes
  | 0, _ => []
  | _ + 1, [] => []
  | k + 1, c :: l => (Arb.St.fgets 191 (c :: l)).1 :: linesLoop k (Arb.St.fgets 191 (c :: l)).2

/-- What is read of it again. -/
def readText (l : Bytes) : Option (List Entry) :=
  match linesLoop l.length l with
  | [] => none
  | head :: ls =>
      if (scanWord 64 (str head)).isNone then none
      else some ((ls.filterMap fun line => scanEntry wide maxName (str line)).take maxFiles)

end list

/-! ### The disk -/

/-- What a path leads to. -/
inductive Node
  | dir
  | file (data : Bytes)
  deriving DecidableEq

/-- What is there, and the paths that were made or opened for writing. -/
structure Disk where
  nodes : Bytes → Option Node := fun _ => none
  touched : List Bytes := []

/-- What the system lets be done: what cannot be removed, and where folders can be made and files be
opened. -/
structure Os where
  stays : Bytes → Bool := fun _ => false
  makes : Bytes → Bool := fun _ => true
  opens : Bytes → Bool := fun _ => true

/-- The list of an artifact that is staged. -/
def expectPath (stage : Bytes) : Bytes := cut 320 (stage ++ text ".expect")

namespace Disk

variable (d : Disk) (os : Os)

/-- `unstage`. -/
def unstage (stage : Bytes) : Disk :=
  { d with
    nodes := fun p =>
      if (p = stage ∨ (stage ++ [slash]) <+: p ∨ p = expectPath stage ∨
          p = cut 320 (stage ++ text ".ready")) ∧
          !os.stays p then none
      else d.nodes p }

/-- `mkdir`. -/
def mkdir (p : Bytes) : Disk :=
  { nodes := if d.nodes p = none ∧ os.makes p then update d.nodes p (some .dir) else d.nodes
    touched := d.touched ++ [p] }

/-- `mkdir` fails, and not because something is there. -/
def blocked (p : Bytes) : Bool := d.nodes p = none && !os.makes p

/-- A file can be opened, and made where there is none. -/
def opened (p : Bytes) : Bool := d.nodes p ≠ some .dir && os.opens p

/-- `open` and `fopen`, of a file to be written from its start, and what is written. -/
def create (p data : Bytes) : Disk :=
  { nodes := if d.opened os p then update d.nodes p (some (.file data)) else d.nodes
    touched := d.touched ++ [p] }

end Disk

/-- The folders of a file. -/
def folders (name : Bytes) : List Bytes :=
  (List.range name.length).filterMap fun k => if name[k]? = some slash then
    some (name.take k) else none

/-- A file of the list is made, its folders first. -/
def makeFile (os : Os) (stage : Bytes) (d : Disk) (f : Entry) : Disk :=
  let dirs := (folders f.name).map fun k => cut 460 (stage.take 300 ++ [slash] ++ k)
  (dirs.foldl (fun d p => d.mkdir os p) d).create os
    (cut 460 (stage.take 300 ++ [slash] ++ f.name.take 127)) []

/-! ### A list, and a piece -/

section calls

variable (wide : ℤ → ℤ) (state : Bytes)

/-- `art_begin`, with what is free, -1 if that is not known.  The list is written whole: a disk that
fills up while it is written is not modelled. -/
def artBegin (os : Os) (free : ℤ) (spec : Bytes) (d : Disk) : Except Bytes Unit × Disk :=
  match heading state spec with
  | none => (.error (text "not an artifact"), d)
  | some (stage, dh, l) =>
    match fileList wide l with
    | .error e => (.error e, d)
    | .ok fs =>
      if fs = [] ∨ maxTotal < total fs then
        (.error (if fs = [] then text "no files" else text "too big"), d)
      else
        let d := d.unstage os stage
        let need := long (2 * total fs + margin)
        -- the staged copy and root's copy of it exist at the same time, before the staged one goes
        if 0 ≤ free ∧ free < need then
          (.error (text "not enough space on this Echo: " ++ decimal (free / 2 ^ 20) ++
            text " MB free, " ++
            decimal (need / 2 ^ 20) ++ text " MB needed"), d)
        else
          let d := d.mkdir os (cut 320 (state ++ text "/artifacts"))
          if d.blocked os stage then (.error (text "cannot write " ++ stage), d.mkdir os stage)
          else
            let d := d.mkdir os stage
            let written := d.create os (expectPath stage) (expectText dh fs)
            if !d.opened os (expectPath stage) then
              (.error (text "cannot write " ++ expectPath stage), written)
            -- every file there from the start: an empty one gets no piece
            else (.ok (), fs.foldl (makeFile os stage) written)

/-- `pwrite` of what is written. -/
def pwrite (old : Bytes) (off : ℕ) (b : Bytes) : Bytes :=
  if b = [] then old
  else old.take off ++ List.replicate (off - old.length) 0 ++ b ++ old.drop (off + b.length)

/-- A piece that comes, whether the system lets its file be opened, and how many bytes of it are
written, none if writing fails. -/
structure Chunk where
  id : Bytes
  file : Bytes
  off : ℤ
  data : Bytes
  opens : Bool := true
  wrote : Option ℕ := some data.length

/-- `read_expect`. -/
def readExpect (d : Disk) (stage : Bytes) : Option (List Entry) :=
  match d.nodes (expectPath stage) with
  | some (.file l) => readText wide l
  | _ => none

/-- `art_chunk`. -/
def artChunk (d : Disk) (c : Chunk) : Except Bytes Unit × Disk :=
  match if goodPath c.file then resolve state c.id else none with
  | none => (.error (text "not an artifact"), d)
  | some stage =>
    match (readExpect wide d stage).bind fun fs => fs.find? fun f => f.name = c.file with
    | none => (.error (text "not being received"), d)
    | some f =>
      if c.off < 0 ∨ f.size < long (c.off + long c.data.length) then
        (.error (text "past the end of " ++ c.file), d)
      else
        let p := cut 460 (stage ++ [slash] ++ c.file)
        let d := { d with touched := d.touched ++ [p] }
        match (if c.opens then d.nodes p else none : Option Node) with
        | some (.file old) =>
            let n := min (c.wrote.getD 0) c.data.length
            let d := { d with
              nodes := update d.nodes p (some (.file (pwrite old c.off.toNat (c.data.take n)))) }
            if c.wrote = some c.data.length then (.ok (), d)
              else (.error (text "write failed (space?)"), d)
        | _ => (.error (text "not being received"), d)

/-- Pieces that come one after the other. -/
def artChunks (d : Disk) (cs : List Chunk) : Disk :=
  cs.foldl (fun d c => (artChunk wide state d c).2) d

end calls

end Hassmic.Artifacts
