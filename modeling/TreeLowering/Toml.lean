import TreeLowering.Keyed

namespace TreeLowering.Toml

-- How a table came about: under its own header, on the way to the header of another, or by dotted keys.
-- It settles what may still be added to the table.
inductive Origin where
  | header
  | passage
  | dotted
  deriving DecidableEq, Repr

-- A value or table. Numbers and dates keep their text only.
inductive Item where
  | string (s : String)
  | boolean (b : Bool)
  | scalar (text : String)
  | array (items : List Item)
  | inline (entries : List (String × Item))
  | table (origin : Origin) (entries : List (String × Item))
  | tables (done : List (List (String × Item))) (last : List (String × Item))

abbrev Entries := List (String × Item)

-- Changes the table at the end of a path of keys. Tables on the way are made as needed, with the given
-- origin; dotted keys may not run through a table that has a header.
def alter (origin : Origin) (change : Origin → Entries → Option (Origin × Entries)) :
    List String → Origin → Entries → Option (Origin × Entries)
  | [], own, entries => change own entries
  | key :: path, own, entries =>
    let put := fun item => (own, Keyed.insert key item entries)
    match Keyed.lookup? key entries with
    | none => (alter origin change path origin []).map fun r => put (.table r.1 r.2)
    | some (.table o inner) =>
      if origin = .dotted ∧ o = .header then none
      else (alter origin change path o inner).map fun r => put (.table r.1 r.2)
    | some (.tables done last) =>
      if origin = .dotted then none
      else (alter origin change path .header last).map fun r => put (.tables done r.2)
    | some _ => none

-- Adds a key that is new to its table. A table made by dotted keys takes keys only through such.
def define (dotted : Bool) (key : String) (item : Item) (own : Origin) (entries : Entries) :
    Option (Origin × Entries) :=
  if (own = .dotted) = dotted ∧ (Keyed.lookup? key entries).isNone then
    some (own, Keyed.insert key item entries)
  else none

def assign (path : List String) (item : Item) (own : Origin) (entries : Entries) :
    Option (Origin × Entries) :=
  match path.getLast? with
  | none => none
  | some key => alter .dotted (define (path.length > 1) key item) path.dropLast own entries

-- Opens the table of a header. It may be new or stand on the way to another.
def openTable (key : String) (own : Origin) (entries : Entries) : Option (Origin × Entries) :=
  match Keyed.lookup? key entries with
  | none => some (own, Keyed.insert key (.table .header []) entries)
  | some (.table .passage inner) => some (own, Keyed.insert key (.table .header inner) entries)
  | some _ => none

def openNext (key : String) (own : Origin) (entries : Entries) : Option (Origin × Entries) :=
  match Keyed.lookup? key entries with
  | none => some (own, Keyed.insert key (.tables [] []) entries)
  | some (.tables done last) => some (own, Keyed.insert key (.tables (done ++ [last]) []) entries)
  | some _ => none

inductive Line where
  | header (path : List String)
  | arrayHeader (path : List String)
  | keyValue (path : List String) (item : Item)

structure Document where
  entries : Entries
  header : List String

namespace Document

def empty : Document := ⟨[], []⟩

def enter (d : Document) (path : List String)
    (opening : String → Origin → Entries → Option (Origin × Entries)) : Option Document := do
  let key ← path.getLast?
  let (_, entries) ← alter .passage (opening key) path.dropLast .header d.entries
  return ⟨entries, path⟩

def add (d : Document) : Line → Option Document
  | .header path => d.enter path openTable
  | .arrayHeader path => d.enter path openNext
  | .keyValue path item => do
    let (_, entries) ← alter .passage (assign path item) d.header .header d.entries
    return ⟨entries, d.header⟩

def ofLines (lines : List Line) : Option Entries := (lines.foldlM add empty).map Document.entries

end Document

end TreeLowering.Toml
