import TreeLowering.Config
import TreeLowering.Command.Arguments
import TreeLowering.Command.Folder
import TreeLowering.Translate
import TreeLowering.Rewrite.Desugarer

namespace TreeLowering

def programName : String := "pyfront"
def programVersion : String := "0.1.0"
def configFile : String := programName ++ ".toml"

inductive ConfigError where
  | unreadable (path : String) (e : ReadError)
  | invalid (path : String) (detail : String)
  deriving DecidableEq, Repr

namespace ConfigError

def cause : ConfigError → String
  | unreadable _ e => e.message
  | invalid _ detail => detail

def message : ConfigError → String
  | e@(unreadable path _) => "failed to read " ++ path ++ ": " ++ e.cause
  | e@(invalid path _) => "invalid configuration in " ++ path ++ ": " ++ e.cause

end ConfigError

namespace Config

def load (folder : Folder) (path shown : String) : Except ConfigError Config :=
  match folder.read path with
  | .error e => .error (.unreadable shown e)
  | .ok text =>
    match ofToml? text with
    | some config => .ok config
    | none => .error (.invalid shown "TOML parse error")

-- The settings of the file that was named, else of the usual file if the folder has one, else those that
-- hold without a file.
def discover (folder : Folder) (named : Option String) : Except ConfigError Config :=
  match named with
  | some path => load folder path path
  | none =>
    if folder.isFile configFile then load folder configFile (folder.place ++ configFile)
    else .ok initial

end Config

namespace DesugarConfig

def apply (config : DesugarConfig) (tree : Node) : Except RewriteError Node := do
  let d ← match config.rules with
    | some names => Desugarer.ofNames coreRegistry names
    | none => pure (Desugarer.standard coreRegistry)
  if config.verify then ((d.run tree).run .initial).1 else ((d.complete tree).run .initial).1

end DesugarConfig

structure Outcome where
  status : Nat
  stdout : String
  stderr : String
  deriving DecidableEq, Repr

namespace Outcome

def printed (lines : List String) : Outcome := ⟨0, String.join (lines.map (· ++ "\n")), ""⟩

-- A failure with its cause, if that is known apart from the message, below lines written before it.
def failed (before : List String) (message : String) (cause : Option String) : Outcome :=
  let reason := match cause with
    | some text => "\nCaused by:\n    " ++ text ++ "\n"
    | none => ""
  ⟨1, "", String.join (before.map (· ++ "\n")) ++ "Error: " ++ message ++ "\n" ++ reason⟩

def usage : Outcome := ⟨2, "", "usage: " ++ programName ++
  " [--config FILE] [--no-lines] desugar INPUT [--rule RULE]... [--no-verify] | check INPUT | schema [KIND]\n"⟩

end Outcome

namespace Command

-- Whether an input is the standard input: a dash, and what follows it as a path does not count while it
-- only says that it is a folder.
def isStdin (input : String) : Bool :=
  match input.splitOn "/" with
  | "-" :: rest => rest.all fun part => part == "" || part == "."
  | _ => false

def onTree (folder : Folder) (config : Config) (input : String) (next : Node → Outcome) : Outcome :=
  let text := if isStdin input then folder.stdin else folder.read input
  match text with
  | .error e =>
    .failed [] ("failed to read " ++ if isStdin input then "stdin" else input) (some e.message)
  | .ok text =>
    match translate text with
    | .error e => .failed (e.lines config.output.showLines) (input ++ ": " ++ e.headline) none
    | .ok tree => next tree

def run (folder : Folder) (config : Config) : Command → Outcome
  | desugar input rules noVerify =>
    let settings : DesugarConfig :=
      ⟨if rules.isEmpty then config.desugar.rules else some rules, config.desugar.verify && !noVerify⟩
    onTree folder config input fun tree =>
      match settings.apply tree with
      | .ok result => .printed [result.render]
      | .error e => .failed [] e.message none
  | check input =>
    onTree folder config input fun tree =>
      .printed [input ++ ": ok (" ++ toString tree.count ++ " nodes)"]
  | schema none => .printed (coreRegistry.schemas.map Schema.render)
  | schema (some kind) =>
    match coreRegistry.get kind with
    | .ok s => .printed [s.render]
    | .error e => .failed [] e.message none

end Command

-- Runs a command line. The configuration is read before anything else.
def Command.execute (folder : Folder) (words : List String) : Outcome :=
  match Arguments.parse? words with
  | none => .usage
  | some .version => .printed [programName ++ " " ++ programVersion]
  | some .help => ⟨0, Outcome.usage.stderr, ""⟩
  | some (.run named noLines command) =>
    match Config.discover folder named with
    | .error e => .failed [] e.message (some e.cause)
    | .ok config => command.run folder ⟨config.desugar, ⟨config.output.showLines && !noLines⟩⟩

end TreeLowering
