import TreeLowering.Native.Decode
import TreeLowering.Translate.ErrorLog
import TreeLowering.Tree.Assign
import TreeLowering.Schema.CoreKinds

namespace TreeLowering

inductive Handler where
  | name
  | number
  | constant
  | importFrom
  | index
  | custom (convert : Native.Node → Option Node)

structure Translator where
  registry : Registry
  handlers : List (String × Handler)
  log : ErrorLog

-- A conversion, which may add to the log. Without a result its failure is in the log already, and it counts
-- as absent from its parent, so that one translation reports every problem.
abbrev Converting (α : Type) := StateM ErrorLog α

def futureModule : String := "__future__"

def knownFeatures : List String :=
  ["nested_scopes", "generators", "division", "absolute_import", "with_statement", "print_function",
   "unicode_literals", "barry_as_FLUFL", "generator_stop", "annotations"]

namespace Translator

def standard (r : Registry) : Translator :=
  ⟨r, [("Name", .name), ("Num", .number), ("Constant", .constant), ("ImportFrom", .importFrom),
    ("Index", .index)], .empty⟩

def register (t : Translator) (kind : String) (handler : Handler) : Translator :=
  { t with handlers := Keyed.insert kind handler t.handlers }

def fail {α : Type} (text : String) (line : Option UInt32) : Converting (Option α) :=
  fun log => (none, log.add ⟨text, line⟩)

def isBlank : Value → Bool
  | .none => true
  | .list items | .tuple items => items.isEmpty
  | _ => false

def outOfRange (text : String) : String := "integer literal " ++ text ++ " does not fit in 64 bits"

-- Builds a node from converted fields. Undeclared fields are tolerated while they are blank.
def build (t : Translator) (kind : String) (fields : List (String × Value)) (line : Option UInt32) :
    Converting (Option Node) :=
  match t.registry.get? kind with
  | none => fail ("unsupported syntax: " ++ kind) line
  | some schema =>
    let fields := fields.filter fun f => (schema.resolve? f.1).isSome || !isBlank f.2
    match Node.ofFields schema fields with
    | .ok n => return some n
    | .error e => fail e.message line

def singleton? : Option Native.Value → Option Value
  | some (.str "True") => some (.bool true)
  | some (.str "False") => some (.bool false)
  | some (.str "None") => some .none
  | _ => none

abbrev Literal := String × String × Value

def number (v : Option Native.Value) : Except String Literal :=
  match v with
  | some (.int n) => .ok ("IntLiteral", "n", .int n)
  | some (.float x) => .ok ("FloatLiteral", "n", .float x)
  | some (.complex z) => .ok ("ComplexLiteral", "n", .complex z)
  | some (.bigInt text) => .error (outOfRange text)
  | some v => .error ("unrecognized numeric literal of type " ++ v.typeName)
  | none => .error "unrecognized numeric literal of type nothing"

def constant (v : Option Native.Value) : Except String Literal :=
  match v with
  | some (.int n) => .ok ("IntLiteral", "n", .int n)
  | some (.float x) => .ok ("FloatLiteral", "n", .float x)
  | some (.complex z) => .ok ("ComplexLiteral", "n", .complex z)
  | some (.bigInt text) => .error (outOfRange text)
  | some (.bool b) => .ok ("NameConstant", "value", .bool b)
  | some .none => .ok ("NameConstant", "value", .none)
  | some (.str s) => .ok ("Str", "s", .str s)
  | some (.bytes bs) => .ok ("Bytes", "s", .bytes bs)
  | some v => .error ("unsupported constant of type " ++ v.typeName)
  | none => .error "unsupported constant of type nothing"

def buildLiteral (t : Translator) (literal : Except String Literal) (line : Option UInt32) :
    Converting (Option Node) :=
  match literal with
  | .ok (kind, field, v) => t.build kind [(field, v)] line
  | .error text => fail text line

def aliasName? : Native.Value → Option String
  | .node n =>
    match n.get? "name" with
    | some (.str name) => some name
    | _ => none
  | _ => none

-- The known features among the names of an import; the others are logged. What is no alias with a name is
-- passed over.
def features (line : Option UInt32) : List Native.Value → Converting (List Value)
  | [] => return []
  | item :: rest =>
    match aliasName? item with
    | none => features line rest
    | some name =>
      if knownFeatures.contains name then do return .str name :: (← features line rest)
      else do
        let _ : Option Unit ← fail ("future feature " ++ name ++ " is not defined") line
        features line rest

-- An import of language features, which needs one that is known.
def buildFeatures (t : Translator) (names : Option Native.Value) (line : Option UInt32) :
    Converting (Option Node) := do
  let aliases := match names with
    | some (.list items) => items
    | _ => []
  let found ← features line aliases
  if found.isEmpty then return none
  else t.build "FutureImport" [("features", .list found)] line

variable (t : Translator)

mutual
def convertNode : Native.Node → Converting (Option Node)
  | .mk kind line fields =>
    let usual := do t.build kind (← convertFields line fields) line
    match Keyed.lookup? kind t.handlers with
    | none => usual
    | some .name =>
      match singleton? (Keyed.lookup? "id" fields) with
      | some v => t.build "NameConstant" [("value", v)] line
      | none => usual
    | some .number => t.buildLiteral (number (Keyed.lookup? "n" fields)) line
    | some .constant => t.buildLiteral (constant (Keyed.lookup? "value" fields)) line
    | some .importFrom =>
      match Keyed.lookup? "module" fields with
      | some (.str module) =>
        if module = futureModule then t.buildFeatures (Keyed.lookup? "names" fields) line else usual
      | _ => usual
    | some .index => convertWrapped line fields
    | some (.custom convert) => return convert (.mk kind line fields)
termination_by structural n => n

def convertFields (line : Option UInt32) : List (String × Native.Value) → Converting (List (String × Value))
  | [] => return []
  | (name, v) :: rest => do
    let v ← convertValue line v
    let rest ← convertFields line rest
    match v with
    | some v => return (name, v) :: rest
    | none => return rest
termination_by structural fs => fs

def convertWrapped (line : Option UInt32) : List (String × Native.Value) → Converting (Option Node)
  | [] => fail "Index without a value" line
  | (name, v) :: rest =>
    if name = "value" then
      match v with
      | .node inner => convertNode inner
      | _ => fail "Index without a value" line
    else convertWrapped line rest
termination_by structural fs => fs

-- A value; problems without a line of their own get that of the enclosing node.
def convertValue (line : Option UInt32) : Native.Value → Converting (Option Value)
  | .node n => do return (← convertNode n).map .node
  | .list items => do return (← convertItems line items).map .list
  | .str s => return some (.str s)
  | .bytes bs => return some (.bytes bs)
  | .int n => return some (.int n)
  | .bigInt text => fail (outOfRange text) line
  | .float x => return some (.float x)
  | .complex z => return some (.complex z)
  | .bool b => return some (.bool b)
  | .none => return some .none
  | .foreign text => fail ("unsupported value " ++ text) line
termination_by structural v => v

-- All elements are converted, but one failure leaves no sequence.
def convertItems (line : Option UInt32) : List Native.Value → Converting (Option (List Value))
  | [] => return some []
  | v :: rest => do
    let v ← convertValue line v
    let rest ← convertItems line rest
    match v, rest with
    | some v, some rest => return some (v :: rest)
    | _, _ => return none
termination_by structural vs => vs
end

-- Translates a whole tree, with a log of its own.
def convert (n : Native.Node) : Except TranslationError Node × Translator :=
  let (found, log) := (t.convertNode n).run .empty
  let outcome := match log.result, found with
    | .error e, _ => .error e
    | .ok (), some tree => .ok tree
    | .ok (), none => .error ⟨[], some (n.kind ++ " produced no node")⟩
  (outcome, { t with log := .empty })

end Translator

-- Translates a native tree, given as JSON text, into Python kinds.
def translate (text : String) : Except TranslationError Node :=
  match Native.read text with
  | .ok n => ((Translator.standard coreRegistry).convert n).1
  | .error e => .error (.malformed e.message)

end TreeLowering
