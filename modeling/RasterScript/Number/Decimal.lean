import RasterScript.Number.Binary

/-! Decimals: the fewest digits that read back as a double, and the double that a decimal reads
as. -/
namespace RasterScript.Number

/-- The value `digits * 10 ^ exponent`. -/
structure Decimal where
  digits : Nat
  exponent : Int
deriving DecidableEq, Repr

/-- Where a value half way between two decimals goes. -/
inductive Tie where
  | up
  | toEven
deriving DecidableEq, Repr

/-- Of the neighbours `k` and `k + 1`, which both lie at the same distance. -/
def Tie.pick (tie : Tie) (k : Nat) : Nat :=
  match tie with
  | .up => k + 1
  | .toEven => if k % 2 = 0 then k else k + 1

namespace Decimal

/-- The decimals that round to `m * 2 ^ q`, on a grid of powers of ten. A point `k` of the grid
stands for `k * step`, the value for `4 * m * unit`, both in the same unit. -/
structure Grid where
  m : Nat
  /-- How far down the interval reaches: half a unit in the last place, a quarter at a power of
  two. -/
  below : Nat
  unit : Nat
  step : Nat

/-- The grid of the multiples of `10 ^ e` around `m * 2 ^ q`. -/
def Grid.around (m : Nat) (q e : Int) : Grid where
  m := m
  below := if m = twoTo 52 ∧ -1074 < q then 1 else 2
  unit := twoTo q.toNat * tenTo (-e).toNat
  step := tenTo e.toNat * 4 * twoTo (-q).toNat

/-- Whether grid point `k` rounds to the value; the ends of the interval do if `m` is even. -/
def Grid.holds (g : Grid) (k : Nat) : Bool :=
  let low := (4 * g.m - g.below) * g.unit
  let high := (4 * g.m + 2) * g.unit
  if g.m % 2 = 0 then low ≤ k * g.step && k * g.step ≤ high
  else low < k * g.step && k * g.step < high

/-- The grid point nearest to the value among its two neighbours that round to it. -/
def Grid.nearest? (g : Grid) (tie : Tie) : Option Nat :=
  let v := 4 * g.m * g.unit
  let k := v / g.step
  match g.holds k, g.holds (k + 1) with
  | true, true =>
    let twice := 2 * (v - k * g.step)
    some (if twice < g.step then k else if g.step < twice then k + 1 else tie.pick k)
  | true, false => some k
  | false, true => some (k + 1)
  | false, false => none

/-- The first grid that has a point, from the multiples of `10 ^ e` down to finer ones. -/
def search (tie : Tie) (m : Nat) (q : Int) : Nat → Int → Decimal
  | 0, e => ⟨4 * m * (Grid.around m q e).unit / (Grid.around m q e).step, e⟩
  | fuel + 1, e =>
    match (Grid.around m q e).nearest? tie with
    | some k => ⟨k, e⟩
    | none => search tie m q fuel (e - 1)

/-- The fewest digits that read back as `m * 2 ^ q`, and of those the nearest. The first grid is
coarser than the value, and seventeen digits always tell two doubles apart. -/
def shortest (tie : Tie) (m : Nat) (q : Int) : Decimal :=
  search tie m q 24 (((m.log2 : Int) + q + 1) * 30103 / 100000 + 2)

def width (n : Nat) : Nat := (Nat.toDigits 10 n).length

/-- The double nearest to a decimal. Exponents far outside the range of doubles are settled by
the size of the value alone. -/
def toFloat (d : Decimal) : Float :=
  if d.digits = 0 then 0
  else
    let top := d.exponent + width d.digits
    if 310 < top then (Binary.infinite false).toFloat
    else if top < -330 then 0
    else Float.ofScientific d.digits (d.exponent < 0) d.exponent.natAbs

def natOfDigits (cs : List Char) : Nat := cs.foldl (fun n c => 10 * n + (c.toNat - 48)) 0

/-- An unsigned decimal as written: digits, digits after a point, and an exponent. -/
structure Spelling where
  whole : List Char
  fraction : List Char
  exponentNegative : Bool
  exponent : List Char

def Spelling.scale (s : Spelling) : Int :=
  Binary.signed s.exponentNegative (natOfDigits s.exponent)

def ofSpelling (s : Spelling) : Decimal :=
  ⟨natOfDigits (s.whole ++ s.fraction), s.scale - s.fraction.length⟩

/-- The part of a text after the digits of `([.]digits)?`, if they are there. -/
def readFraction : List Char → List Char × List Char
  | '.' :: cs =>
    match cs.takeWhile Char.isDigit with
    | [] => ([], '.' :: cs)
    | ds => (ds, cs.dropWhile Char.isDigit)
  | cs => ([], cs)

/-- The sign and digits of `([eE][+-]?digits)?`, if they are there, and the text after them. -/
def readExponent (cs : List Char) : Bool × List Char × List Char :=
  match cs with
  | c :: rest =>
    if c = 'e' ∨ c = 'E' then
      let (negative, ds) := match rest with
        | '-' :: ds => (true, ds)
        | '+' :: ds => (false, ds)
        | ds => (false, ds)
      match ds.takeWhile Char.isDigit with
      | [] => (false, [], cs)
      | digits => (negative, digits, ds.dropWhile Char.isDigit)
    else (false, [], cs)
  | [] => (false, [], [])

/-- The longest decimal at the start of a text that starts with a digit, and the text after it. -/
def read (cs : List Char) : Spelling × List Char :=
  let whole := cs.takeWhile Char.isDigit
  let (fraction, rest) := readFraction (cs.dropWhile Char.isDigit)
  let (negative, exponent, rest) := readExponent rest
  (⟨whole, fraction, negative, exponent⟩, rest)

end Decimal

end RasterScript.Number
