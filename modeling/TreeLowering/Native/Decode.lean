import TreeLowering.Native
import TreeLowering.Json.Document

namespace TreeLowering.Native

inductive DecodeError where
  | malformed (detail : String)
  | notANode (found : String)
  | invalidEncoding (key detail : String)
  deriving DecidableEq, Repr

def DecodeError.message : DecodeError → String
  | .malformed detail => "invalid JSON: " ++ detail
  | .notANode found => "expected a node object with a '_type' key, got " ++ found
  | .invalidEncoding key detail => "invalid '" ++ key ++ "' value: " ++ detail

def summarize : Json → String
  | .null => "null"
  | .bool _ => "a boolean"
  | .number _ => "a number"
  | .string _ => "a string"
  | .array _ => "an array"
  | .object _ => "an object without a string '_type'"

def positionKeys : List String := ["col_offset", "end_lineno", "end_col_offset"]

def isReserved (key : String) : Bool := key == "_type" || key == "lineno" || positionKeys.contains key

-- A number by its literal: an integer that fits in 64 bits, a larger one as text, else a float where one
-- is near enough.
def ofNumeral (text : String) : Value :=
  match Json.Numeral.toInt64? text with
  | some n => .int n
  | none =>
    if Json.Numeral.isInteger text then .bigInt text
    else match Json.Numeral.toBinary64? text with
      | some x => .float x
      | none => .foreign text

def float? : Json → Option Binary64
  | .number text => Json.Numeral.toBinary64? text
  | _ => none

def byte? : Json → Option UInt8
  | .number text => (Json.Numeral.toNat? text 256).map UInt8.ofNat
  | _ => none

def decodeComplex (j : Json) : Except DecodeError Value :=
  let invalid := DecodeError.invalidEncoding "_complex" ("expected [re, im], got " ++ String.ofList j.compact)
  match j with
  | .array [re, im] =>
    match float? re, float? im with
    | some re, some im => .ok (.complex ⟨re, im⟩)
    | _, _ => .error invalid
  | _ => .error invalid

def decodeBytes (j : Json) : Except DecodeError Value :=
  let invalid := DecodeError.invalidEncoding "_bytes"
    ("expected an array of byte values, got " ++ String.ofList j.compact)
  match j with
  | .array items =>
    match items.mapM byte? with
    | some bytes => .ok (.bytes bytes)
    | none => .error invalid
  | _ => .error invalid

-- The line of a node: a number below 2 ^ 32 under `lineno`.
def line? (members : List (String × Json)) : Option UInt32 :=
  match Keyed.lookup? "lineno" members with
  | some (.number text) => (Json.Numeral.toNat? text (Nat.pow 2 32)).map UInt32.ofNat
  | _ => none

mutual
def decodeValue : Json → Except DecodeError Value
  | .null => .ok .none
  | .bool b => .ok (.bool b)
  | .number text => .ok (ofNumeral text)
  | .string s => .ok (.str s)
  | .array items => do return .list (← decodeItems items)
  | .object members =>
    match Keyed.lookup? "_type" members with
    | some (.string kind) => do
      let fields ← decodeFields members
      return .node (.mk kind (line? members) fields)
    | some _ => .error (.notANode (summarize (.object members)))
    | none =>
      match Keyed.lookup? "_complex" members, Keyed.lookup? "_bytes" members with
      | some parts, _ => decodeComplex parts
      | none, some bytes => decodeBytes bytes
      | none, none => .ok (.foreign (String.ofList (Json.object members).compact))
termination_by structural j => j

def decodeItems : List Json → Except DecodeError (List Value)
  | [] => .ok []
  | j :: rest => do
    let v ← decodeValue j
    let vs ← decodeItems rest
    return v :: vs
termination_by structural js => js

def decodeFields : List (String × Json) → Except DecodeError (List (String × Value))
  | [] => .ok []
  | (key, j) :: rest =>
    if isReserved key then decodeFields rest
    else do
      let v ← decodeValue j
      let fields ← decodeFields rest
      return (key, v) :: fields
termination_by structural ms => ms
end

def ofJson (j : Json) : Except DecodeError Node := do
  match ← decodeRoot j with
  | .node n => return n
  | _ => throw (.notANode (summarize j))
where
  decodeRoot : Json → Except DecodeError Value
    | .object members =>
      if (Keyed.lookup? "_type" members).isSome then decodeValue (.object members)
      else .error (.notANode (summarize (.object members)))
    | j => .error (.notANode (summarize j))

def read (text : String) : Except DecodeError Node :=
  match Json.read? text with
  | some j => ofJson j
  | none => .error (.malformed "the text is no single value")

end TreeLowering.Native
