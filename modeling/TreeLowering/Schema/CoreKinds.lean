import TreeLowering.Schema.Registry

namespace TreeLowering

def coreTable : SchemaTable := ⟨[
  ⟨"AST", none, []⟩,
  ⟨"mod", some "AST", []⟩,
  ⟨"stmt", some "AST", []⟩,
  ⟨"expr", some "AST", []⟩,
  ⟨"expr_context", some "AST", []⟩,
  ⟨"boolop", some "AST", []⟩,
  ⟨"operator", some "AST", []⟩,
  ⟨"unaryop", some "AST", []⟩,
  ⟨"cmpop", some "AST", []⟩,
  ⟨"excepthandler", some "AST", []⟩,
  ⟨"Module", some "mod", [⟨"body", "stmt", "zero_or_more"⟩, ⟨"type_ignores", "TypeIgnore", "zero_or_more"⟩]⟩,
  ⟨"Interactive", some "mod", [⟨"body", "stmt", "zero_or_more"⟩]⟩,
  ⟨"Expression", some "mod", [⟨"body", "expr", "required"⟩]⟩,
  ⟨"FunctionDef", some "stmt", [⟨"name", "identifier", "required"⟩, ⟨"args", "arguments", "required"⟩,
     ⟨"body", "stmt", "one_or_more"⟩, ⟨"decorator_list", "expr", "zero_or_more"⟩,
     ⟨"returns", "expr", "optional"⟩, ⟨"type_comment", "string", "optional"⟩]⟩,
  ⟨"ClassDef", some "stmt", [⟨"name", "identifier", "required"⟩, ⟨"bases", "expr", "zero_or_more"⟩,
     ⟨"keywords", "keyword", "zero_or_more"⟩, ⟨"body", "stmt", "one_or_more"⟩,
     ⟨"decorator_list", "expr", "zero_or_more"⟩]⟩,
  ⟨"Return", some "stmt", [⟨"value", "expr", "optional"⟩]⟩,
  ⟨"Delete", some "stmt", [⟨"targets", "expr", "one_or_more"⟩]⟩,
  ⟨"Assign", some "stmt", [⟨"targets", "expr", "one_or_more"⟩, ⟨"value", "expr", "required"⟩,
     ⟨"type_comment", "string", "optional"⟩]⟩,
  ⟨"AugAssign", some "stmt", [⟨"target", "expr", "required"⟩, ⟨"op", "operator", "required"⟩,
     ⟨"value", "expr", "required"⟩]⟩,
  ⟨"AnnAssign", some "stmt", [⟨"target", "expr", "required"⟩, ⟨"annotation", "expr", "required"⟩,
     ⟨"value", "expr", "optional"⟩, ⟨"simple", "int", "required"⟩]⟩,
  ⟨"For", some "stmt", [⟨"target", "expr", "required"⟩, ⟨"iter", "expr", "required"⟩,
     ⟨"body", "stmt", "one_or_more"⟩, ⟨"orelse", "stmt", "zero_or_more"⟩,
     ⟨"type_comment", "string", "optional"⟩]⟩,
  ⟨"While", some "stmt", [⟨"test", "expr", "required"⟩, ⟨"body", "stmt", "one_or_more"⟩,
     ⟨"orelse", "stmt", "zero_or_more"⟩]⟩,
  ⟨"If", some "stmt", [⟨"test", "expr", "required"⟩, ⟨"body", "stmt", "one_or_more"⟩,
     ⟨"orelse", "stmt", "zero_or_more"⟩]⟩,
  ⟨"With", some "stmt", [⟨"items", "withitem", "one_or_more"⟩, ⟨"body", "stmt", "one_or_more"⟩,
     ⟨"type_comment", "string", "optional"⟩]⟩,
  ⟨"Raise", some "stmt", [⟨"exc", "expr", "optional"⟩, ⟨"cause", "expr", "optional"⟩]⟩,
  ⟨"Try", some "stmt", [⟨"body", "stmt", "one_or_more"⟩, ⟨"handlers", "excepthandler", "zero_or_more"⟩,
     ⟨"orelse", "stmt", "zero_or_more"⟩, ⟨"finalbody", "stmt", "zero_or_more"⟩]⟩,
  ⟨"Assert", some "stmt", [⟨"test", "expr", "required"⟩, ⟨"msg", "expr", "optional"⟩]⟩,
  ⟨"Import", some "stmt", [⟨"names", "alias", "one_or_more"⟩]⟩,
  ⟨"ImportFrom", some "stmt", [⟨"module", "string", "optional"⟩, ⟨"names", "alias", "one_or_more"⟩,
     ⟨"level", "int", "optional"⟩]⟩,
  ⟨"FutureImport", some "stmt", [⟨"features", "identifier", "one_or_more"⟩]⟩,
  ⟨"Global", some "stmt", [⟨"names", "identifier", "one_or_more"⟩]⟩,
  ⟨"Nonlocal", some "stmt", [⟨"names", "identifier", "one_or_more"⟩]⟩,
  ⟨"Expr", some "stmt", [⟨"value", "expr", "required"⟩]⟩,
  ⟨"Pass", some "stmt", []⟩,
  ⟨"Break", some "stmt", []⟩,
  ⟨"Continue", some "stmt", []⟩,
  ⟨"BoolOp", some "expr", [⟨"op", "boolop", "required"⟩, ⟨"values", "expr", "one_or_more"⟩]⟩,
  ⟨"NamedExpr", some "expr", [⟨"target", "expr", "required"⟩, ⟨"value", "expr", "required"⟩]⟩,
  ⟨"BinOp", some "expr", [⟨"left", "expr", "required"⟩, ⟨"op", "operator", "required"⟩,
     ⟨"right", "expr", "required"⟩]⟩,
  ⟨"UnaryOp", some "expr", [⟨"op", "unaryop", "required"⟩, ⟨"operand", "expr", "required"⟩]⟩,
  ⟨"Lambda", some "expr", [⟨"args", "arguments", "required"⟩, ⟨"body", "expr", "required"⟩]⟩,
  ⟨"IfExp", some "expr", [⟨"test", "expr", "required"⟩, ⟨"body", "expr", "required"⟩,
     ⟨"orelse", "expr", "required"⟩]⟩,
  ⟨"Dict", some "expr", [⟨"keys", "expr", "zero_or_more"⟩, ⟨"values", "expr", "zero_or_more"⟩]⟩,
  ⟨"Set", some "expr", [⟨"elts", "expr", "zero_or_more"⟩]⟩,
  ⟨"ListComp", some "expr", [⟨"elt", "expr", "required"⟩, ⟨"generators", "comprehension", "one_or_more"⟩]⟩,
  ⟨"SetComp", some "expr", [⟨"elt", "expr", "required"⟩, ⟨"generators", "comprehension", "one_or_more"⟩]⟩,
  ⟨"DictComp", some "expr", [⟨"key", "expr", "required"⟩, ⟨"value", "expr", "required"⟩,
     ⟨"generators", "comprehension", "one_or_more"⟩]⟩,
  ⟨"GeneratorExp", some "expr", [⟨"elt", "expr", "required"⟩,
     ⟨"generators", "comprehension", "one_or_more"⟩]⟩,
  ⟨"Await", some "expr", [⟨"value", "expr", "required"⟩]⟩,
  ⟨"Yield", some "expr", [⟨"value", "expr", "optional"⟩]⟩,
  ⟨"YieldFrom", some "expr", [⟨"value", "expr", "required"⟩]⟩,
  ⟨"Compare", some "expr", [⟨"left", "expr", "required"⟩, ⟨"ops", "cmpop", "one_or_more"⟩,
     ⟨"comparators", "expr", "one_or_more"⟩]⟩,
  ⟨"Call", some "expr", [⟨"func", "expr", "required"⟩, ⟨"args", "expr", "zero_or_more"⟩,
     ⟨"keywords", "keyword", "zero_or_more"⟩]⟩,
  ⟨"FormattedValue", some "expr", [⟨"value", "expr", "required"⟩, ⟨"conversion", "int", "optional"⟩,
     ⟨"format_spec", "expr", "optional"⟩]⟩,
  ⟨"JoinedStr", some "expr", [⟨"values", "expr", "zero_or_more"⟩]⟩,
  ⟨"Attribute", some "expr", [⟨"value", "expr", "required"⟩, ⟨"attr", "identifier", "required"⟩,
     ⟨"ctx", "expr_context", "required"⟩]⟩,
  ⟨"Subscript", some "expr", [⟨"value", "expr", "required"⟩, ⟨"slice", "expr", "required"⟩,
     ⟨"ctx", "expr_context", "required"⟩]⟩,
  ⟨"Starred", some "expr", [⟨"value", "expr", "required"⟩, ⟨"ctx", "expr_context", "required"⟩]⟩,
  ⟨"Name", some "expr", [⟨"id", "identifier", "required"⟩, ⟨"ctx", "expr_context", "required"⟩]⟩,
  ⟨"List", some "expr", [⟨"elts", "expr", "zero_or_more"⟩, ⟨"ctx", "expr_context", "required"⟩]⟩,
  ⟨"Tuple", some "expr", [⟨"elts", "expr", "zero_or_more"⟩, ⟨"ctx", "expr_context", "required"⟩]⟩,
  ⟨"Slice", some "expr", [⟨"lower", "expr", "optional"⟩, ⟨"upper", "expr", "optional"⟩,
     ⟨"step", "expr", "optional"⟩]⟩,
  ⟨"Str", some "expr", [⟨"s", "string", "required"⟩]⟩,
  ⟨"Bytes", some "expr", [⟨"s", "bytes", "required"⟩]⟩,
  ⟨"IntLiteral", some "expr", [⟨"n", "int", "required"⟩]⟩,
  ⟨"FloatLiteral", some "expr", [⟨"n", "float", "required"⟩]⟩,
  ⟨"ComplexLiteral", some "expr", [⟨"n", "complex", "required"⟩]⟩,
  ⟨"NameConstant", some "expr", [⟨"value", "singleton", "required"⟩]⟩,
  ⟨"Ellipsis", some "expr", []⟩,
  ⟨"Load", some "expr_context", []⟩,
  ⟨"Store", some "expr_context", []⟩,
  ⟨"Del", some "expr_context", []⟩,
  ⟨"And", some "boolop", []⟩,
  ⟨"Or", some "boolop", []⟩,
  ⟨"Add", some "operator", []⟩,
  ⟨"Sub", some "operator", []⟩,
  ⟨"Mult", some "operator", []⟩,
  ⟨"MatMult", some "operator", []⟩,
  ⟨"Div", some "operator", []⟩,
  ⟨"Mod", some "operator", []⟩,
  ⟨"Pow", some "operator", []⟩,
  ⟨"LShift", some "operator", []⟩,
  ⟨"RShift", some "operator", []⟩,
  ⟨"BitOr", some "operator", []⟩,
  ⟨"BitXor", some "operator", []⟩,
  ⟨"BitAnd", some "operator", []⟩,
  ⟨"FloorDiv", some "operator", []⟩,
  ⟨"Invert", some "unaryop", []⟩,
  ⟨"Not", some "unaryop", []⟩,
  ⟨"UAdd", some "unaryop", []⟩,
  ⟨"USub", some "unaryop", []⟩,
  ⟨"Eq", some "cmpop", []⟩,
  ⟨"NotEq", some "cmpop", []⟩,
  ⟨"Lt", some "cmpop", []⟩,
  ⟨"LtE", some "cmpop", []⟩,
  ⟨"Gt", some "cmpop", []⟩,
  ⟨"GtE", some "cmpop", []⟩,
  ⟨"Is", some "cmpop", []⟩,
  ⟨"IsNot", some "cmpop", []⟩,
  ⟨"In", some "cmpop", []⟩,
  ⟨"NotIn", some "cmpop", []⟩,
  ⟨"ExceptHandler", some "excepthandler", [⟨"type", "expr", "optional"⟩,
     ⟨"name", "identifier", "optional"⟩, ⟨"body", "stmt", "one_or_more"⟩]⟩,
  ⟨"comprehension", some "AST", [⟨"target", "expr", "required"⟩, ⟨"iter", "expr", "required"⟩,
     ⟨"ifs", "expr", "zero_or_more"⟩, ⟨"is_async", "int", "required"⟩]⟩,
  ⟨"arguments", some "AST", [⟨"posonlyargs", "arg", "zero_or_more"⟩, ⟨"args", "arg", "zero_or_more"⟩,
     ⟨"vararg", "arg", "optional"⟩, ⟨"kwonlyargs", "arg", "zero_or_more"⟩,
     ⟨"kw_defaults", "expr", "zero_or_more"⟩, ⟨"kwarg", "arg", "optional"⟩,
     ⟨"defaults", "expr", "zero_or_more"⟩]⟩,
  ⟨"arg", some "AST", [⟨"arg", "identifier", "required"⟩, ⟨"annotation", "expr", "optional"⟩,
     ⟨"type_comment", "string", "optional"⟩]⟩,
  ⟨"keyword", some "AST", [⟨"arg", "identifier", "optional"⟩, ⟨"value", "expr", "required"⟩]⟩,
  ⟨"alias", some "AST", [⟨"name", "string", "required"⟩, ⟨"asname", "identifier", "optional"⟩]⟩,
  ⟨"withitem", some "AST", [⟨"context_expr", "expr", "required"⟩, ⟨"optional_vars", "expr", "optional"⟩]⟩,
  ⟨"TypeIgnore", some "AST", [⟨"lineno", "int", "required"⟩, ⟨"tag", "string", "required"⟩]⟩
]⟩

def coreRegistryAt (origin : Nat) : Registry :=
  match Registry.ofTable origin coreTable with
  | .ok r => r
  | .error _ => .empty origin

def coreRegistry : Registry := coreRegistryAt 0

end TreeLowering
