import TreeLowering.Json.Token
import TreeLowering.Keyed

namespace TreeLowering.Json

-- How the values of a document are built. Strings and keys are absent where their text spells nothing.
structure Builder (α : Type) where
  null : α
  bool : Bool → α
  number : String → α
  string : Option String → Option α
  array : List α → α
  object : List (Option String × α) → Option α

-- An array or object that waits for a value; what it holds already is last first.
inductive Frame (α : Type) where
  | items (held : List α)
  | member (held : List (Option String × α)) (key : Option String)

inductive State (α : Type) where
  | value (stack : List (Frame α))
  | firstItem (stack : List (Frame α))
  | moreItems (held : List α) (stack : List (Frame α))
  | firstKey (stack : List (Frame α))
  | nextKey (held : List (Option String × α)) (stack : List (Frame α))
  | colon (held : List (Option String × α)) (key : Option String) (stack : List (Frame α))
  | moreMembers (held : List (Option String × α)) (stack : List (Frame α))
  | done (v : α)

namespace State

variable {α : Type} (build : Builder α) (limit : Option Nat)

def deliver (v : α) : List (Frame α) → State α
  | [] => done v
  | .items held :: stack => moreItems (v :: held) stack
  | .member held key :: stack => moreMembers ((key, v) :: held) stack

-- A new array or object may be opened while fewer than the limit are open.
def mayOpen (stack : List (Frame α)) : Bool :=
  match limit with
  | none => true
  | some n => stack.length < n

def begin? (stack : List (Frame α)) : Token → Option (State α)
  | .null => some (deliver build.null stack)
  | .bool b => some (deliver (build.bool b) stack)
  | .number text => some (deliver (build.number text) stack)
  | .string s => (build.string s).map (deliver · stack)
  | .openArray => if mayOpen limit stack then some (firstItem stack) else none
  | .openObject => if mayOpen limit stack then some (firstKey stack) else none
  | _ => none

def close? (held : List (Option String × α)) (stack : List (Frame α)) : Option (State α) :=
  (build.object held.reverse).map (deliver · stack)

def step? : State α → Token → Option (State α)
  | value stack, t => begin? build limit stack t
  | firstItem stack, .closeArray => some (deliver (build.array []) stack)
  | firstItem stack, t => begin? build limit (.items [] :: stack) t
  | moreItems held stack, .comma => some (value (.items held :: stack))
  | moreItems held stack, .closeArray => some (deliver (build.array held.reverse) stack)
  | firstKey stack, .closeObject => close? build [] stack
  | firstKey stack, .string s => some (colon [] s stack)
  | nextKey held stack, .string s => some (colon held s stack)
  | colon held k stack, .colon => some (value (.member held k :: stack))
  | moreMembers held stack, .comma => some (nextKey held stack)
  | moreMembers held stack, .closeObject => close? build held stack
  | _, _ => none

end State

-- The value of a text that is one document. At most `limit` arrays and objects may be open at once.
def build? (build : Builder α) (limit : Option Nat) (text : String) : Option α := do
  let tokens ← tokens? text.toList
  match ← tokens.foldlM (State.step? build limit) (.value []) with
  | .done v => some v
  | _ => none

-- The key that an object begins with if it stands for a number.
def numberKey : String := "$serde_json::private::Number"

-- The number of an object that stands for one: its only member holds a literal as a string.
def wrapped? : List (String × Json) → Option Json
  | [(_, .string text)] => (Numeral.spelling? text.toList).map fun cs => .number (String.ofList cs)
  | _ => none

-- The value of an object. A repeated key keeps its first place and its last value.
def ofMembers? (members : List (String × Json)) : Option Json :=
  if members.head?.any fun m => m.1 = numberKey then wrapped? members
  else some (.object (members.foldl (fun held m => Keyed.insert m.1 m.2 held) []))

def values : Builder Json where
  null := .null
  bool := .bool
  number := .number
  string := fun s => s.map .string
  array := .array
  object := fun members => do ofMembers? (← members.mapM fun m => m.1.map fun key => (key, m.2))

def depthLimit : Nat := 127

def read? (text : String) : Option Json := build? values (some depthLimit) text

end TreeLowering.Json
