import RasterScript.Number.Decimal

/-! The texts of numbers: where positional notation ends, and how exponents are written. -/
namespace RasterScript.Number

/-- The decisions of one way to write doubles. -/
structure Layout where
  /-- Powers of ten of the leading digit that are written without an exponent. -/
  positional : Int → Bool
  /-- Whole numbers end in `.0`. -/
  point : Bool
  /-- A positive exponent carries a sign. -/
  plus : Bool
  tie : Tie

namespace Layout

/-- Messages and listings: all digits, no exponent, no point on whole numbers. -/
def plain : Layout where
  positional _ := true
  point := false
  plus := false
  tie := .up

/-- Trees: an exponent from 1e16 up and below 1e-4. -/
def tree : Layout where
  positional e := -4 ≤ e && e < 16
  point := true
  plus := false
  tie := .up

/-- Raster files: an exponent from 1e16 up and below 1e-5, with its sign. -/
def file : Layout where
  positional e := -5 ≤ e && e < 16
  point := true
  plus := true
  tie := .toEven

/-- Digits with the point moved `e` places. -/
def shifted (point : Bool) (ds : List Char) (e : Int) : List Char :=
  if 0 ≤ e then
    ds ++ List.replicate e.toNat '0' ++ (if point then ['.', '0'] else [])
  else
    let places := (-e).toNat
    if places < ds.length then
      ds.take (ds.length - places) ++ '.' :: ds.drop (ds.length - places)
    else '0' :: '.' :: (List.replicate (places - ds.length) '0' ++ ds)

/-- One digit before the point, and the power of ten after an `e`. -/
def scientific (plus : Bool) (ds : List Char) (power : Int) : List Char :=
  let mantissa := match ds with
    | d :: d' :: rest => d :: '.' :: d' :: rest
    | ds => ds
  let sign := if power < 0 then ['-'] else if plus then ['+'] else []
  mantissa ++ 'e' :: (sign ++ Nat.toDigits 10 power.natAbs)

def decimal (layout : Layout) (d : Decimal) : List Char :=
  let ds := Nat.toDigits 10 d.digits
  let power := d.exponent + ds.length - 1
  if layout.positional power then shifted layout.point ds d.exponent
  else scientific layout.plus ds power

def magnitude (layout : Layout) (m : Nat) (q : Int) : List Char :=
  if m = 0 then '0' :: (if layout.point then ['.', '0'] else [])
  else layout.decimal (Decimal.shortest layout.tie m q)

def binary (layout : Layout) : Binary → List Char
  | .nan => ['N', 'a', 'N']
  | .infinite negative => (if negative then ['-'] else []) ++ ['i', 'n', 'f']
  | .finite negative m q => (if negative then ['-'] else []) ++ layout.magnitude m q

def text (layout : Layout) (x : Float) : String := String.ofList (layout.binary (.ofFloat x))

end Layout

def plain (x : Float) : String := Layout.plain.text x

/-- The text of a double without its places after the point, a half to the even neighbour. -/
def rounded (x : Float) : String :=
  match Binary.ofFloat x with
  | .finite negative m q =>
    let whole := Binary.wholePart m q
    let n :=
      if 0 ≤ q then whole
      else
        let d := twoTo (-q).toNat
        let twice := 2 * (m % d)
        if twice < d then whole else if d < twice then whole + 1 else Tie.toEven.pick whole
    (if negative then "-" else "") ++ toString n
  | _ => plain x

end RasterScript.Number
