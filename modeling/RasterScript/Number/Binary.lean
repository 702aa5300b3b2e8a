import RasterScript.Number.Power

/-! Doubles as exact binary fractions: reading their bits, and the operations that are exact on
them. -/
namespace RasterScript.Number

/-- A double as what it stands for: a finite one is `m * 2 ^ q` with a sign. -/
inductive Binary where
  | nan
  | infinite (negative : Bool)
  | finite (negative : Bool) (m : Nat) (q : Int)
deriving DecidableEq, Repr

namespace Binary

def ofBits (bits : Nat) : Binary :=
  let negative := bits / twoTo 63 % 2 == 1
  let exponent : Nat := bits / twoTo 52 % twoTo 11
  let fraction := bits % twoTo 52
  if exponent == 2047 then
    if fraction == 0 then infinite negative else nan
  else if exponent == 0 then finite negative fraction (-1074)
  else finite negative (twoTo 52 + fraction) ((exponent : Int) - 1075)

def ofFloat (x : Float) : Binary := ofBits x.toBits.toNat

/-- The bit pattern of `m * 2 ^ q` for `m < 2 ^ 53`, shifted up as far as its format allows. -/
def magnitudeBits (m : Nat) (q : Int) : Nat :=
  let shift := min (52 - m.log2) (q + 1074).toNat
  let m := m * twoTo shift
  let q := q - shift
  if m < twoTo 52 then m else (q + 1075).toNat * twoTo 52 + (m - twoTo 52)

def toFloat : Binary → Float
  | nan => Float.ofBits 0x7ff8000000000000
  | infinite negative => Float.ofBits (if negative then 0xfff0000000000000 else 0x7ff0000000000000)
  | finite negative m q =>
    let bits := if m = 0 then 0 else magnitudeBits m q
    Float.ofBits (UInt64.ofNat (if negative then twoTo 63 + bits else bits))

def signed (negative : Bool) (n : Nat) : Int := if negative then -(n : Int) else n

/-- The whole part of `m * 2 ^ q`. -/
def wholePart (m : Nat) (q : Int) : Nat :=
  if 0 ≤ q then m * twoTo q.toNat else m / twoTo (-q).toNat

/-- The integer nearest to `m * 2 ^ q`; a half goes up. -/
def nearestWhole (m : Nat) (q : Int) : Nat :=
  if 0 ≤ q then m * twoTo q.toNat
  else
    let d := twoTo (-q).toNat
    (2 * m + d) / (2 * d)

def isWhole (m : Nat) (q : Int) : Bool := 0 ≤ q || m % twoTo (-q).toNat == 0

/-- The remainder of a division that goes toward zero, with the sign of the dividend. -/
def remainder : Binary → Binary → Binary
  | nan, _ | _, nan | infinite _, _ => nan
  | finite s m q, infinite _ => finite s m q
  | finite s m q, finite _ m' q' =>
    if m' = 0 then nan
    else
      let low := min q q'
      finite s ((m * twoTo (q - low).toNat) % (m' * twoTo (q' - low).toNat)) low

end Binary

/-- The integer nearest to a finite double, halves away from zero. -/
def nearestInt? (x : Float) : Option Int :=
  match Binary.ofFloat x with
  | .finite negative m q => some (Binary.signed negative (Binary.nearestWhole m q))
  | _ => none

/-- Integers of 64 bits: larger ones become the limit on their side. -/
def saturate (n : Int) : Int := max (-(twoTo 63 : Int)) (min n ((twoTo 63 : Int) - 1))

/-- A double cut to a 64-bit integer toward zero; nothing for NaN. -/
def truncate? (x : Float) : Option Int :=
  match Binary.ofFloat x with
  | .nan => none
  | .infinite negative => some (if negative then -(twoTo 63 : Int) else (twoTo 63 : Int) - 1)
  | .finite negative m q => some (saturate (Binary.signed negative (Binary.wholePart m q)))

def natural? (x : Float) : Option Nat :=
  match Binary.ofFloat x with
  | .finite negative m q =>
    if Binary.isWhole m q && (!negative || m == 0) then some (Binary.wholePart m q) else none
  | _ => none

def remainder (x y : Float) : Float :=
  (Binary.remainder (Binary.ofFloat x) (Binary.ofFloat y)).toFloat

end RasterScript.Number
