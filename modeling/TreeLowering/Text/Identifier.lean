namespace TreeLowering.Text

def startsIdentifier (c : Char) : Bool := c.isAlpha || c == '_'
def continuesIdentifier (c : Char) : Bool := c.isAlphanum || c == '_'

def isIdentifier (s : String) : Bool :=
  match s.toList with
  | [] => false
  | c :: cs => startsIdentifier c && cs.all continuesIdentifier

end TreeLowering.Text
