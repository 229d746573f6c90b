import TreeLowering.Toml.Scan

namespace TreeLowering

-- The settings of a desugaring: the rules in order of priority, or all of them, and whether the result
-- is checked.
structure DesugarConfig where
  rules : Option (List String)
  verify : Bool
  deriving DecidableEq, Repr

-- The settings of the output: whether problems are shown with their source lines.
structure OutputConfig where
  showLines : Bool
  deriving DecidableEq, Repr

structure Config where
  desugar : DesugarConfig
  output : OutputConfig
  deriving DecidableEq, Repr

namespace Config

def initial : Config := ⟨⟨none, true⟩, ⟨true⟩⟩

-- The parts of a group of settings in the order of `keys`. An array gives them by position, and what it
-- has beyond them does not count.
def parts? (keys : List String) : Toml.Item → Option (List (Option Toml.Item))
  | .inline entries | .table _ entries =>
    if entries.all fun e => keys.contains e.1 then
      some (keys.map fun key => Keyed.lookup? key entries)
    else none
  | .array items => some ((List.range keys.length).map (items[·]?))
  | .tables done last =>
    let items := (done ++ [last]).map (Toml.Item.table .header)
    some ((List.range keys.length).map (items[·]?))
  | _ => none

def boolean? : Toml.Item → Option Bool
  | .boolean b => some b
  | _ => none

def string? : Toml.Item → Option String
  | .string s => some s
  | _ => none

def strings? : Toml.Item → Option (List String)
  | .array items => items.mapM string?
  | _ => none

def setting? {α : Type} (read? : Toml.Item → Option α) (otherwise : α) : Option Toml.Item → Option α
  | none => some otherwise
  | some item => read? item

def desugar? (item : Toml.Item) : Option DesugarConfig := do
  match ← parts? ["rules", "verify"] item with
  | [rules, verify] =>
    let rules ← setting? (fun item => (strings? item).map some) initial.desugar.rules rules
    return ⟨rules, ← setting? boolean? initial.desugar.verify verify⟩
  | _ => none

def output? (item : Toml.Item) : Option OutputConfig := do
  match ← parts? ["show_lines"] item with
  | [showLines] => return ⟨← setting? boolean? initial.output.showLines showLines⟩
  | _ => none

def ofToml? (text : String) : Option Config := do
  match ← parts? ["desugar", "output"] (.table .header (← Toml.read? text)) with
  | [desugar, output] =>
    let desugar ← setting? desugar? initial.desugar desugar
    return ⟨desugar, ← setting? output? initial.output output⟩
  | _ => none

end Config

end TreeLowering
