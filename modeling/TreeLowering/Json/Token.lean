import TreeLowering.Json

namespace TreeLowering.Json

-- A token. A string is absent when its escapes leave a surrogate unpaired, so that it spells no text.
inductive Token where
  | openArray
  | closeArray
  | openObject
  | closeObject
  | comma
  | colon
  | null
  | bool (b : Bool)
  | number (text : String)
  | string (s : Option String)
  deriving DecidableEq, Repr

-- A string in the course of being read: its characters so far, last first, a high surrogate that waits
-- for its low one, and whether all surrogates up to here were paired.
structure Spelled where
  chars : List Char
  high : Option Nat
  sound : Bool
  deriving DecidableEq, Repr

namespace Spelled

def empty : Spelled := ⟨[], none, true⟩

def put (s : Spelled) (c : Char) : Spelled := ⟨c :: s.chars, none, s.sound && s.high.isNone⟩

def putUnit (s : Spelled) (unit : Nat) : Spelled :=
  let low := 0xdc00 ≤ unit ∧ unit ≤ 0xdfff
  match s.high with
  | some high =>
    if low then
      ⟨Char.ofNat (0x10000 + (high - 0xd800) * 0x400 + (unit - 0xdc00)) :: s.chars, none, s.sound⟩
    else ⟨s.chars, none, false⟩
  | none =>
    if low then ⟨s.chars, none, false⟩
    else if 0xd800 ≤ unit ∧ unit ≤ 0xdbff then ⟨s.chars, some unit, s.sound⟩
    else s.put (Char.ofNat unit)

def text? (s : Spelled) : Option String :=
  if s.sound ∧ s.high.isNone then some (String.ofList s.chars.reverse) else none

end Spelled

-- Where the automaton stands: between tokens, in a literal without quotes, in a string, behind a
-- backslash, or behind `\u` with the digits so far as a number and their count.
inductive Mode where
  | gap
  | word (chars : List Char)
  | text (s : Spelled)
  | escape (s : Spelled)
  | unit (s : Spelled) (value count : Nat)
  deriving DecidableEq, Repr

namespace Mode

def isBlank (c : Char) : Bool := c = ' ' || c = '\t' || c = '\n' || c = '\r'

def inWord (c : Char) : Bool := c.isAlphanum || c = '-' || c = '+' || c = '.'

def hexDigit? (c : Char) : Option Nat :=
  if '0' ≤ c ∧ c ≤ '9' then some (c.toNat - '0'.toNat)
  else if 'a' ≤ c ∧ c ≤ 'f' then some (c.toNat - 'a'.toNat + 10)
  else if 'A' ≤ c ∧ c ≤ 'F' then some (c.toNat - 'A'.toNat + 10)
  else none

def escaped? : Char → Option Char
  | '"' => some '"'
  | '\\' => some '\\'
  | '/' => some '/'
  | 'b' => some '\x08'
  | 'f' => some '\x0c'
  | 'n' => some '\n'
  | 'r' => some '\r'
  | 't' => some '\t'
  | _ => none

def word? (chars : List Char) : Option Token :=
  if chars = "null".toList then some .null
  else if chars = "true".toList then some (.bool true)
  else if chars = "false".toList then some (.bool false)
  else (Numeral.spelling? chars).map fun text => .number (String.ofList text)

def start? (c : Char) : Option (Mode × List Token) :=
  match c with
  | '[' => some (gap, [.openArray])
  | ']' => some (gap, [.closeArray])
  | '\x7b' => some (gap, [.openObject])
  | '\x7d' => some (gap, [.closeObject])
  | ',' => some (gap, [.comma])
  | ':' => some (gap, [.colon])
  | '"' => some (text .empty, [])
  | c =>
    if isBlank c then some (gap, [])
    else if inWord c then some (word [c], [])
    else none

def step? : Mode → Char → Option (Mode × List Token)
  | gap, c => start? c
  | word chars, c =>
    if inWord c then some (word (c :: chars), [])
    else do
      let token ← word? chars.reverse
      let (mode, tokens) ← start? c
      return (mode, token :: tokens)
  | text s, c =>
    if c = '"' then some (gap, [.string s.text?])
    else if c = '\\' then some (escape s, [])
    else if c.toNat < 0x20 then none
    else some (text (s.put c), [])
  | escape s, c =>
    if c = 'u' then some (unit s 0 0, [])
    else (escaped? c).map fun e => (text (s.put e), [])
  | unit s value count, c =>
    (hexDigit? c).map fun d =>
      if count = 3 then (text (s.putUnit (16 * value + d)), [])
      else (unit s (16 * value + d) (count + 1), [])

def finish? : Mode → Option (List Token)
  | gap => some []
  | word chars => (word? chars.reverse).map fun token => [token]
  | _ => none

end Mode

-- One more character for an automaton that has completed some tokens, last first.
def advance? (held : Mode × List Token) (c : Char) : Option (Mode × List Token) := do
  let (mode, found) ← held.1.step? c
  return (mode, found.reverse ++ held.2)

def tokens? (cs : List Char) : Option (List Token) := do
  let (mode, found) ← cs.foldlM advance? (Mode.gap, [])
  return found.reverse ++ (← mode.finish?)

end TreeLowering.Json
