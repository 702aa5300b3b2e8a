/-! Lines and columns of byte offsets. -/
namespace RasterScript.Text

/-- A line and a column, both counted from one. -/
structure Position where
  line : Nat
  column : Nat
deriving DecidableEq, Repr

/-- The first index from `low` up to `high` that has not the property `p`, found by halving. The
indices that have it must come before those that have not. -/
def partitionPoint (p : Nat → Bool) (low high : Nat) : Nat :=
  if low < high then
    let middle := (low + high) / 2
    if p middle then partitionPoint p (middle + 1) high else partitionPoint p low middle
  else low
termination_by high - low

def charOffsets (start : Nat) : List Char → List (Nat × Char)
  | [] => []
  | c :: cs => (start, c) :: charOffsets (start + c.utf8Size) cs

/-- The characters after the first bytes, unless these end inside of a character. -/
def dropBytes? : List Char → Nat → Option (List Char)
  | cs, 0 => some cs
  | [], _ + 1 => none
  | c :: cs, n + 1 =>
    if n + 1 < c.utf8Size then none else dropBytes? cs (n + 1 - c.utf8Size)

/-- The characters of the first bytes, unless these end inside of a character. -/
def takeBytes? : List Char → Nat → Option (List Char)
  | _, 0 => some []
  | [], _ + 1 => none
  | c :: cs, n + 1 =>
    if n + 1 < c.utf8Size then none else (takeBytes? cs (n + 1 - c.utf8Size)).map (c :: ·)

/-- The characters between two offsets, unless one of these lies inside of a character. -/
def slice? (cs : List Char) (start stop : Nat) : Option (List Char) :=
  if start ≤ stop then (dropBytes? cs start).bind (takeBytes? · (stop - start)) else none

/-- A text and the offsets at which its lines start. -/
structure LineIndex where
  text : String
  starts : Array Nat

namespace LineIndex

/-- The first line starts with the text, and each other one after a line end. -/
def ofText (text : String) : LineIndex where
  text := text
  starts :=
    (0 :: ((charOffsets 0 text.toList).filter fun p => p.2 = '\n').map fun p => p.1 + 1).toArray

/-- The line and column of a byte offset. Columns count characters; the end of the text stands for
all offsets beyond it, and an offset inside of a character counts in bytes from the start of the
line. -/
def position (index : LineIndex) (offset : Nat) : Position :=
  let offset := min offset index.text.utf8ByteSize
  let starts := index.starts
  let line := partitionPoint (fun i => starts.getD i 0 ≤ offset) 0 starts.size - 1
  let start := starts.getD line 0
  let column := ((slice? index.text.toList start offset).map List.length).getD (offset - start)
  ⟨line + 1, column + 1⟩

end LineIndex

def position (text : String) (offset : Nat) : Position := (LineIndex.ofText text).position offset

end RasterScript.Text
