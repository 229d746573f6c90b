import TreeLowering.Tree
import TreeLowering.Binary64.Layout
import TreeLowering.Text.Quoted

namespace TreeLowering

-- A complex literal: the imaginary part alone when the real part is a positive zero, else the sum in
-- parentheses, its sign being that of the imaginary part.
def Complex.render (z : Complex) : List Char :=
  let part := Binary64.Layout.part.render
  if z.re.isZero && !z.re.negative then part z.im ++ ['j']
  else if z.im.negative then '(' :: (part z.re ++ '-' :: part z.im.neg ++ ['j', ')'])
  else '(' :: (part z.re ++ '+' :: part z.im ++ ['j', ')'])

def renderInt (n : Int) : List Char :=
  (if n < 0 then ['-'] else []) ++ Decimal.digits n.natAbs

mutual
def Value.chars : Value → List Char
  | .none => "None".toList
  | .bool true => "True".toList
  | .bool false => "False".toList
  | .int n => renderInt n.toInt
  | .float x => Binary64.Layout.literal.render x
  | .complex z => z.render
  | .str s => Text.literal s
  | .bytes bs => Text.bytesLiteral bs
  | .list items => '[' :: (Value.listChars items ++ [']'])
  | .tuple [v] => '(' :: (v.chars ++ [',', ')'])
  | .tuple items => '(' :: (Value.listChars items ++ [')'])
  | .node n => n.chars
termination_by structural v => v

def Value.listChars : List Value → List Char
  | [] => []
  | [v] => v.chars
  | v :: rest => v.chars ++ ',' :: ' ' :: Value.listChars rest
termination_by structural vs => vs

-- The set fields, each behind `lead` when it is the first of them and behind a comma from then on.
def Slot.listChars (first : Bool) : List Field → List Slot → List Char
  | f :: fs, s :: ss =>
    let lead := if first then [] else [',', ' ']
    match s with
    | .unset => Slot.listChars first fs ss
    | .explicitNone => lead ++ f.name.toList ++ '=' :: ("None".toList ++ Slot.listChars false fs ss)
    | .value v => lead ++ f.name.toList ++ '=' :: (v.chars ++ Slot.listChars false fs ss)
  | _, _ => []
termination_by structural _ ss => ss

def Node.chars : Node → List Char
  | .mk schema slots =>
    schema.kind.toList ++ '(' :: (Slot.listChars true schema.fields slots ++ [')'])
termination_by structural n => n
end

def Value.render (v : Value) : String := String.ofList v.chars

def Node.render (n : Node) : String := String.ofList n.chars

end TreeLowering
