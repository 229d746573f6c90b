namespace TreeLowering

-- How many values a field holds. A tag outside of the closed set is kept; only filling in defaults
-- rejects it.
inductive Cardinality where
  | required
  | optional
  | zeroOrMore
  | oneOrMore
  | unknown (tag : String)
  deriving DecidableEq, Repr

namespace Cardinality

def ofTag : String → Cardinality
  | "required" => required
  | "optional" => optional
  | "zero_or_more" => zeroOrMore
  | "one_or_more" => oneOrMore
  | tag => unknown tag

def tag : Cardinality → String
  | required => "required"
  | optional => "optional"
  | zeroOrMore => "zero_or_more"
  | oneOrMore => "one_or_more"
  | unknown tag => tag

def isSequence : Cardinality → Bool
  | zeroOrMore | oneOrMore => true
  | _ => false

-- The cardinalities of which an unset field is incomplete.
def isMandatory : Cardinality → Bool
  | required | oneOrMore => true
  | _ => false

def mark : Cardinality → String
  | required => ""
  | optional => "?"
  | zeroOrMore => "*"
  | oneOrMore => "+"
  | unknown _ => "!"

end Cardinality

inductive ElementType where
  | identifier
  | string
  | bytes
  | int
  | float
  | complex
  | bool
  | singleton
  | constant
  | object
  | kind (name : String)
  deriving DecidableEq, Repr

namespace ElementType

-- Every name that is no primitive type is the name of a node kind.
def ofName : String → ElementType
  | "identifier" => identifier
  | "string" => string
  | "bytes" => bytes
  | "int" => int
  | "float" => float
  | "complex" => complex
  | "bool" => bool
  | "singleton" => singleton
  | "constant" => constant
  | "object" => object
  | name => kind name

def name : ElementType → String
  | identifier => "identifier"
  | string => "string"
  | bytes => "bytes"
  | int => "int"
  | float => "float"
  | complex => "complex"
  | bool => "bool"
  | singleton => "singleton"
  | constant => "constant"
  | object => "object"
  | kind name => name

end ElementType

structure Field where
  name : String
  type : ElementType
  cardinality : Cardinality
  deriving DecidableEq, Repr

namespace Field

def ofTags (name type cardinality : String) : Field :=
  ⟨name, .ofName type, .ofTag cardinality⟩

def render (f : Field) : String := f.type.name ++ f.cardinality.mark ++ " " ++ f.name

end Field

end TreeLowering
