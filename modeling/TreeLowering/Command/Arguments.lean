namespace TreeLowering

inductive Command where
  | desugar (input : String) (rules : List String) (noVerify : Bool)
  | check (input : String)
  | schema (kind : Option String)
  deriving DecidableEq, Repr

def Command.input? : Command → Option String
  | desugar input _ _ => some input
  | check input => some input
  | schema _ => none

inductive Request where
  | run (config : Option String) (noLines : Bool) (command : Command)
  | version
  | help
  deriving DecidableEq, Repr

namespace Arguments

inductive Name where
  | desugar
  | check
  | schema
  deriving DecidableEq, Repr

def Name.ofWord? : String → Option Name
  | "desugar" => some .desugar
  | "check" => some .check
  | "schema" => some .schema
  | _ => none

-- The options and positional words so far. An option that is no list may be given once before the command
-- and once behind it; `config` and `noLines` hold what was given where the reading stands.
structure Seen where
  command : Option Name
  outerConfig : Option String
  config : Option String
  outerNoLines : Bool
  noLines : Bool
  rules : List String
  noVerify : Bool
  words : List String
  deriving DecidableEq, Repr

def Seen.start : Seen := ⟨none, none, none, false, false, [], false, []⟩

def capacity : Option Name → Nat
  | none => 0
  | some _ => 1

def addWord (s : Seen) (word : String) : Option Seen :=
  match s.command with
  | none => (Name.ofWord? word).map fun name =>
      { s with command := some name, outerConfig := s.config, config := none,
               outerNoLines := s.noLines, noLines := false }
  | some name =>
    if s.words.length < capacity (some name) && (name = .schema || word ≠ "") then
      some { s with words := s.words ++ [word] }
    else none

def setConfig (s : Seen) (path : String) : Option Seen :=
  if s.config.isSome || path = "" then none else some { s with config := some path }

def addRule (s : Seen) (rule : String) : Option Seen :=
  if s.command = some .desugar then some { s with rules := s.rules ++ [rule] } else none

def setNoLines (s : Seen) : Option Seen := if s.noLines then none else some { s with noLines := true }

def setNoVerify (s : Seen) : Option Seen :=
  if s.command = some .desugar && !s.noVerify then some { s with noVerify := true } else none

inductive Word where
  | option (name : String) (value : Option String)
  | positional (word : String)
  | separator
  deriving DecidableEq, Repr

def splitValue (cs : List Char) : String × Option String :=
  let name := String.ofList (cs.takeWhile (· ≠ '='))
  match cs.dropWhile (· ≠ '=') with
  | _ :: value => (name, some (String.ofList value))
  | [] => (name, none)

-- Long options have two dashes and their value behind an equals sign, short ones a letter with the value
-- right behind it. A single dash is a word.
def Word.ofString (s : String) : Word :=
  match s.toList with
  | ['-', '-'] => .separator
  | '-' :: '-' :: cs => .option ("--" ++ (splitValue cs).1) (splitValue cs).2
  | '-' :: c :: [] => .option (String.ofList ['-', c]) none
  | '-' :: c :: '=' :: value => .option (String.ofList ['-', c]) (some (String.ofList value))
  | '-' :: c :: value => .option (String.ofList ['-', c]) (some (String.ofList value))
  | _ => .positional s

def canBeValue (s : String) : Bool :=
  match Word.ofString s with
  | .positional _ => true
  | _ => false

def help? : List String → Option Request
  | [] => some .help
  | [topic] => if topic = "help" || (Name.ofWord? topic).isSome then some .help else none
  | _ => none

-- Reads the words of a command line; after a separator all are positional. A request for the version or
-- for help ends the reading where it stands.
def read? (s : Seen) (onlyWords : Bool) : List String → Option (Sum Request Seen)
  | [] => some (.inr s)
  | w :: rest =>
    if onlyWords then
      if s.command.isNone then none else do read? (← addWord s w) true rest
    else match Word.ofString w with
      | .separator => read? s true rest
      | .positional word =>
        if s.command.isNone && word = "help" then (help? rest).map .inl
        else do read? (← addWord s word) false rest
      | .option "--config" (some value) => do read? (← setConfig s value) false rest
      | .option "--config" none =>
        match rest with
        | value :: rest =>
          if canBeValue value then do read? (← setConfig s value) false rest else none
        | [] => none
      | .option "--rule" (some value) | .option "-r" (some value) => do
        read? (← addRule s value) false rest
      | .option "--rule" none | .option "-r" none =>
        match rest with
        | value :: rest => if canBeValue value then do read? (← addRule s value) false rest else none
        | [] => none
      | .option "--no-lines" none => do read? (← setNoLines s) false rest
      | .option "--no-verify" none => do read? (← setNoVerify s) false rest
      | .option "--help" none | .option "-h" _ => some (.inl .help)
      | .option "--version" none | .option "-V" _ =>
        if s.command.isNone then some (.inl .version) else none
      | .option _ _ => none

def Seen.request? (s : Seen) : Option Request := do
  let command ← match ← s.command, s.words with
    | .desugar, [input] => some (.desugar input s.rules s.noVerify)
    | .check, [input] => some (.check input)
    | .schema, [] => some (.schema none)
    | .schema, [kind] => some (.schema (some kind))
    | _, _ => none
  return .run (s.config <|> s.outerConfig) (s.noLines || s.outerNoLines) command

def parse? (words : List String) : Option Request := do
  match ← read? .start false words with
  | .inl request => return request
  | .inr s => s.request?

end Arguments

end TreeLowering
