import TreeLowering.Toml
import TreeLowering.Toml.Scalar

namespace TreeLowering.Toml

open Json.Mode (hexDigit?)

abbrev Scan (α : Type) := List Char → Option (α × List Char)

def isSpace (c : Char) : Bool := c = ' ' || c = '\t'

def skipSpace (cs : List Char) : List Char := cs.dropWhile isSpace

def isPlain (c : Char) : Bool := c = '\t' || (0x20 ≤ c.toNat && c.toNat ≠ 0x7f)

def lineEnd? : List Char → Option (List Char)
  | '\n' :: r => some r
  | '\r' :: '\n' :: r => some r
  | _ => none

def skipComment : List Char → List Char
  | '#' :: r => r.dropWhile isPlain
  | r => r

def unicode? (ds : List Char) : Option Char := do
  let n := (← ds.mapM hexDigit?).foldl (fun n d => 16 * n + d) 0
  if n < 0xd800 ∨ (0xdfff < n ∧ n < 0x110000) then some (Char.ofNat n) else none

def escaped? : Char → Option Char
  | 'b' => some '\x08'
  | 't' => some '\t'
  | 'n' => some '\n'
  | 'f' => some '\x0c'
  | 'r' => some '\r'
  | '"' => some '"'
  | '\\' => some '\\'
  | _ => none

-- The rest of a basic string; `held` are its characters so far, last first.
def basic (held : List Char) : Scan String
  | '"' :: r => some (String.ofList held.reverse, r)
  | '\\' :: 'u' :: a :: b :: c :: d :: r => do basic ((← unicode? [a, b, c, d]) :: held) r
  | '\\' :: 'U' :: a :: b :: c :: d :: e :: f :: g :: h :: r => do
    basic ((← unicode? [a, b, c, d, e, f, g, h]) :: held) r
  | '\\' :: c :: r => do basic ((← escaped? c) :: held) r
  | c :: r => if isPlain c then basic (c :: held) r else none
  | [] => none

def literal (held : List Char) : Scan String
  | '\'' :: r => some (String.ofList held.reverse, r)
  | c :: r => if isPlain c then literal (c :: held) r else none
  | [] => none

-- Up to two quotes may stand directly before the closing three.
def closing (quote : Char) (held : List Char) : Scan String
  | a :: b :: r =>
    if a = quote ∧ b = quote then some (String.ofList (quote :: quote :: held).reverse, r)
    else if a = quote then some (String.ofList (quote :: held).reverse, b :: r)
    else some (String.ofList held.reverse, a :: b :: r)
  | [a] => if a = quote then some (String.ofList (quote :: held).reverse, [])
    else some (String.ofList held.reverse, [a])
  | [] => some (String.ofList held.reverse, [])

def literalLines (held : List Char) : Scan String
  | '\'' :: '\'' :: '\'' :: r => closing '\'' held r
  | '\r' :: '\n' :: r => literalLines ('\n' :: held) r
  | c :: r => if isPlain c || c = '\n' then literalLines (c :: held) r else none
  | [] => none

-- The rest of a basic string over several lines. While `trimming`, blanks and line ends are passed over:
-- they follow a backslash at the end of a line.
def basicLines (trimming : Bool) (held : List Char) : Scan String
  | '\r' :: '\n' :: r => if trimming then basicLines true held r else basicLines false ('\n' :: held) r
  | '\n' :: r => if trimming then basicLines true held r else basicLines false ('\n' :: held) r
  | '"' :: '"' :: '"' :: r => closing '"' held r
  | '\\' :: 'u' :: a :: b :: c :: d :: r => do basicLines false ((← unicode? [a, b, c, d]) :: held) r
  | '\\' :: 'U' :: a :: b :: c :: d :: e :: f :: g :: h :: r => do
    basicLines false ((← unicode? [a, b, c, d, e, f, g, h]) :: held) r
  | '\\' :: c :: r =>
    match escaped? c with
    | some e => basicLines false (e :: held) r
    | none =>
      if (isSpace c || c = '\n' || c = '\r') && (lineEnd? (skipSpace (c :: r))).isSome then
        basicLines true held (c :: r)
      else none
  | c :: r =>
    if trimming && isSpace c then basicLines true held r
    else if isPlain c then basicLines false (c :: held) r
    else none
  | [] => none

-- A line end directly behind the opening quotes does not belong to the string.
def skipLineEnd (cs : List Char) : List Char := (lineEnd? cs).getD cs

def string? : Scan String
  | '"' :: '"' :: '"' :: r => basicLines false [] (skipLineEnd r)
  | '\'' :: '\'' :: '\'' :: r => literalLines [] (skipLineEnd r)
  | '"' :: r => basic [] r
  | '\'' :: r => literal [] r
  | _ => none

def inBareKey (c : Char) : Bool := c.isAlphanum || c = '_' || c = '-'

def key? (cs : List Char) : Option (String × List Char) :=
  match cs with
  | '"' :: r => basic [] r
  | '\'' :: r => literal [] r
  | cs =>
    let bare := cs.takeWhile inBareKey
    if bare.isEmpty then none else some (String.ofList bare, cs.dropWhile inBareKey)

-- Keys with dots between them; blanks may stand on either side of a dot.
def keys? (cs : List Char) : Option (List String × List Char) := do
  let (key, r) ← key? (skipSpace cs)
  match skipSpace r with
  | '.' :: r =>
    if r.length < cs.length then
      let (keys, r) ← keys? r
      return (key :: keys, r)
    else none
  | r => return ([key], r)
termination_by cs.length

-- The most arrays and inline tables that may be open at once, and the most keys of a path.
def nestingLimit : Nat := 79

def path? (cs : List Char) : Option (List String × List Char) := do
  let (path, r) ← keys? cs
  if path.length ≤ nestingLimit then some (path, r) else none

def scalar? (cs : List Char) : Option (Item × List Char) :=
  let (text, r) := scalarText cs
  if text = "true".toList then some (.boolean true, r)
  else if text = "false".toList then some (.boolean false, r)
  else if isScalar text then some (.scalar (String.ofList text), r)
  else none

def skipTrivia (cs : List Char) : List Char :=
  let r := skipComment (skipSpace cs)
  match lineEnd? r with
  | none => r
  | some next => if next.length < cs.length then skipTrivia next else next
termination_by cs.length

mutual
-- A value. As many arrays and inline tables may be opened in one another as there is `room`.
def value? (room : Nat) (cs : List Char) : Option (Item × List Char) :=
  match cs with
  | '[' :: r =>
    if room = 0 then none
    else do
      let (items, r) ← items? (room - 1) [] r
      return (.array items, r)
  | '\x7b' :: r =>
    if room = 0 then none
    else do
      let (entries, r) ← pairs? (room - 1) [] true r
      return (.inline entries, r)
  | '"' :: _ => (string? cs).map fun s => (.string s.1, s.2)
  | '\'' :: _ => (string? cs).map fun s => (.string s.1, s.2)
  | _ => scalar? cs
termination_by 2 * cs.length

-- The rest of an array; `held` are its elements so far, last first.
def items? (room : Nat) (held : List Item) (cs : List Char) : Option (List Item × List Char) :=
  match skipTrivia cs with
  | ']' :: r => some (held.reverse, r)
  | r =>
    if r.length ≤ cs.length then do
      let (item, r) ← value? room r
      match skipTrivia r with
      | ']' :: r => some ((item :: held).reverse, r)
      | ',' :: r => if r.length < cs.length then items? room (item :: held) r else none
      | _ => none
    else none
termination_by 2 * cs.length + 1

-- The rest of an inline table; only an empty one may close at its `first` place.
def pairs? (room : Nat) (held : Entries) (first : Bool) (cs : List Char) : Option (Entries × List Char) :=
  match skipSpace cs with
  | '\x7d' :: r => if first then some (held, r) else none
  | r => do
    let (path, r) ← path? r
    match r with
    | '=' :: r =>
      if (skipSpace r).length < cs.length then do
        let (item, r) ← value? room (skipSpace r)
        let (_, held) ← assign path item .header held
        match skipSpace r with
        | '\x7d' :: r => some (held, r)
        | ',' :: r => if r.length < cs.length then pairs? room held false r else none
        | _ => none
      else none
    | _ => none
termination_by 2 * cs.length + 1
end

def line? : List Char → Option (Line × List Char)
  | '[' :: '[' :: r => do
    let (path, r) ← path? r
    match r with
    | ']' :: ']' :: r => some (.arrayHeader path, r)
    | _ => none
  | '[' :: r => do
    let (path, r) ← path? r
    match r with
    | ']' :: r => some (.header path, r)
    | _ => none
  | r => do
    let (path, r) ← path? r
    match r with
    | '=' :: r => do
      let (item, r) ← value? nestingLimit (skipSpace r)
      return (.keyValue path item, r)
    | _ => none

-- The lines of a text. Each says at most one thing, and may end in a comment.
def lines? (cs : List Char) : Option (List Line) := do
  let start := skipSpace cs
  let (found, r) ← match start with
    | [] | '#' :: _ | '\n' :: _ | '\r' :: _ => pure ([], start)
    | _ => (line? start).map fun l => ([l.1], l.2)
  match skipComment (skipSpace r) with
  | [] => return found
  | r => do
    let next ← lineEnd? r
    if next.length < cs.length then return found ++ (← lines? next) else none
termination_by cs.length

-- Reads a document. A byte order mark in front is passed over.
def read? (text : String) : Option Entries :=
  let cs := match text.toList with
    | '\ufeff' :: r => r
    | r => r
  (lines? cs).bind Document.ofLines

end TreeLowering.Toml
