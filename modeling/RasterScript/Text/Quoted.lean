import RasterScript.Text.Invisible

/-! Texts between double quotes, with every character told by sight. -/
namespace RasterScript.Text

def escaped (c : Char) : List Char :=
  if c = '"' then ['\\', '"']
  else if c = '\\' then ['\\', '\\']
  else if c = '\n' then ['\\', 'n']
  else if c = '\r' then ['\\', 'r']
  else if c = '\t' then ['\\', 't']
  else if c.toNat = 0 then ['\\', '0']
  else if isInvisible c then ['\\', 'u', '\x7b'] ++ Nat.toDigits 16 c.toNat ++ ['\x7d']
  else [c]

def quotedChars (cs : List Char) : List Char := '"' :: (cs.flatMap escaped ++ ['"'])

def quoted (s : String) : String := String.ofList (quotedChars s.toList)

end RasterScript.Text
