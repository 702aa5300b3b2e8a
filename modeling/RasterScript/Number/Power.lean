/-! Powers of two and ten. -/
namespace RasterScript.Number

/-- Two to a power; so many values have the given number of bits. -/
def twoTo (k : Nat) : Nat := Nat.pow 2 k

def tenTo (k : Nat) : Nat := Nat.pow 10 k

end RasterScript.Number
