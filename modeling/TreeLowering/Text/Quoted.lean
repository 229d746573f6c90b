namespace TreeLowering.Text

-- The quote to use: double exactly when the text has a single quote and no double quote.
def mark (cs : List Char) : Char :=
  if cs.contains '\'' && !cs.contains '"' then '"' else '\''

def hexPair (n : Nat) : List Char := [Nat.digitChar (n / 16 % 16), Nat.digitChar (n % 16)]

-- One character inside a literal; `plain` holds of those that may stand for themselves.
def escape (plain : Char → Bool) (mark c : Char) : List Char :=
  if c = '\\' then ['\\', '\\']
  else if c = '\n' then ['\\', 'n']
  else if c = '\r' then ['\\', 'r']
  else if c = '\t' then ['\\', 't']
  else if c = mark then ['\\', c]
  else if plain c then [c]
  else '\\' :: 'x' :: hexPair c.toNat

def quoted (plain : Char → Bool) (cs : List Char) : List Char :=
  mark cs :: (cs.flatMap (escape plain (mark cs)) ++ [mark cs])

-- Text keeps every character but the control characters of ASCII; bytes keep printable ASCII.
def plainText (c : Char) : Bool := 0x20 ≤ c.toNat && c.toNat ≠ 0x7f
def plainByte (c : Char) : Bool := 0x20 ≤ c.toNat && c.toNat ≤ 0x7e

def literal (s : String) : List Char := quoted plainText s.toList

def bytesLiteral (bytes : List UInt8) : List Char :=
  'b' :: quoted plainByte (bytes.map fun b => Char.ofNat b.toNat)

end TreeLowering.Text
