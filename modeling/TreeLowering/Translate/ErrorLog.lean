namespace TreeLowering

-- One problem, with the source line of the native node where that is known.
structure Message where
  text : String
  line : Option UInt32
  deriving DecidableEq, Repr

def Message.render (m : Message) : String :=
  match m.line with
  | some line => "line " ++ toString line.toNat ++ ": " ++ m.text
  | none => m.text

-- The failure of a translation: every problem in the order found, and a summary.
structure TranslationError where
  messages : List Message
  summary : Option String
  deriving DecidableEq, Repr

namespace TranslationError

def malformed (detail : String) : TranslationError :=
  ⟨[⟨"source could not be parsed into a syntax tree", none⟩], some detail⟩

def headline (e : TranslationError) : String := e.summary.getD "translation failed"

def render (e : TranslationError) : String :=
  e.messages.foldl (fun text m => text ++ "\n  " ++ m.render) e.headline

def lines (e : TranslationError) (showLines : Bool) : List String :=
  e.messages.map fun m => if showLines then m.render else m.text

end TranslationError

structure ErrorLog where
  messages : List Message
  deriving DecidableEq, Repr

namespace ErrorLog

def empty : ErrorLog := ⟨[]⟩

def add (log : ErrorLog) (m : Message) : ErrorLog := ⟨log.messages ++ [m]⟩

def addText (log : ErrorLog) (text : String) : ErrorLog := log.add ⟨text, none⟩

def size (log : ErrorLog) : Nat := log.messages.length

def isEmpty (log : ErrorLog) : Bool := log.messages.isEmpty

def result (log : ErrorLog) : Except TranslationError Unit :=
  if log.isEmpty then .ok ()
  else
    let errors := if log.size = 1 then "error" else "errors"
    .error ⟨log.messages,
      some ("found " ++ toString log.size ++ " " ++ errors ++ " while translating the syntax tree")⟩

end ErrorLog

end TreeLowering
