import Flatword.Json.Fields
import Flatword.Json.Reader
import Flatword.Source.Program

/-!
# Programs as JSON

Every part of a program has a `toJson` that writes all fields and a `ofJson?` that reads them,
with the fields that may be absent at their defaults. What a statement, an expression or an access
holds is read with the loose spelling of forms. A program in a text is subject to a limit: no part
of it that is read may be nested more than 127 deep.
-/

namespace Flatword

/-- The names of the members of an enumeration, to read them back. -/
def caseTable {α : Type} (all : List α) (name : α → String) : List (String × α) :=
  all.map fun a => (name a, a)

namespace TokenKind

def toJson (k : TokenKind) : Json := .str k.name

def read? : Json.Spelling → Json → Option TokenKind := Json.caseIn? (caseTable all name)

def ofJson? : Json → Option TokenKind := read? .strict

end TokenKind

namespace ValueType

def toJson (t : ValueType) : Json := .str t.name

def read? : Json.Spelling → Json → Option ValueType := Json.caseIn? (caseTable all name)

def ofJson? : Json → Option ValueType := read? .strict

end ValueType

namespace BinaryOp

def toJson (op : BinaryOp) : Json := .str op.name

def read? : Json.Spelling → Json → Option BinaryOp := Json.caseIn? (caseTable all name)

def ofJson? : Json → Option BinaryOp := read? .strict

end BinaryOp

namespace Comparison

def toJson (op : Comparison) : Json := .str op.name

def read? : Json.Spelling → Json → Option Comparison := Json.caseIn? (caseTable all name)

def ofJson? : Json → Option Comparison := read? .strict

end Comparison

namespace LogicalOp

def toJson (op : LogicalOp) : Json := .str op.name

def read? : Json.Spelling → Json → Option LogicalOp := Json.caseIn? (caseTable all name)

def ofJson? : Json → Option LogicalOp := read? .strict

end LogicalOp

namespace UnaryOp

def toJson (op : UnaryOp) : Json := .str op.name

def read? : Json.Spelling → Json → Option UnaryOp := Json.caseIn? (caseTable all name)

def ofJson? : Json → Option UnaryOp := read? .strict

end UnaryOp

namespace Token

mutual

def toJson : Token → Json
  | ⟨kind, value, line, params, structName⟩ => .obj [("kind", kind.toJson), ("value", .str value),
      ("line", .ofLine line), ("params", .arr (listToJson params)), ("extValue", .str structName)]

def listToJson : List Token → List Json
  | [] => []
  | token :: rest => token.toJson :: listToJson rest

end

/-- Read a token nested at most `depth` deep. -/
def read? (spelling : Json.Spelling) : (depth : Nat) → Json → Option Token
  | 0, _ => none
  | depth + 1, j =>
    match j.fields? ["kind", "value", "line", "params", "extValue"] with
    | some [kind, value, line, params, structName] => do
      let tokens? (params : Json) : Option (List Token) :=
        match depth with
        | 0 => none
        | depth + 1 => params.list? (read? spelling depth)
      return {
        kind := ← Json.required (Json.within depth (TokenKind.read? spelling)) kind
        value := ← Json.required Json.str? value
        line := ← Json.required Json.uint32? line
        params := ← Json.withDefault [] tokens? params
        structName := ← Json.withDefault "" Json.str? structName }
    | _ => none

def ofJson? (j : Json) : Option Token :=
  read? .strict j.depth j

/-- Read a token that stands inside a statement. -/
def inner? (j : Json) : Option Token :=
  read? .loose j.depth j

end Token

namespace Expr

mutual

def toJson : Expr → Json
  | constant hex fixed line => .obj [("type", .str "constant"), ("hex", .str hex),
      ("fixed", .bool fixed), ("line", .ofLine line)]
  | lookup name path line => .obj [("type", .str "lookup"), ("name", .str name),
      ("modifiers", .arr (pathToJson path)), ("line", .ofLine line)]
  | call name args line => .obj [("type", .str "call"), ("name", .str name),
      ("args", .arr (listToJson args)), ("line", .ofLine line)]
  | unary op operand line => .obj [("type", .str "unary"), ("op", op.toJson),
      ("operand", operand.toJson), ("line", .ofLine line)]
  | binary op left right line => .obj [("type", .str "binary"), ("op", op.toJson),
      ("left", left.toJson), ("right", right.toJson), ("line", .ofLine line)]
  | compare op left right line => .obj [("type", .str "compare"), ("op", op.toJson),
      ("left", left.toJson), ("right", right.toJson), ("line", .ofLine line)]
  | logical op left right line => .obj [("type", .str "logical"), ("op", op.toJson),
      ("left", left.toJson), ("right", right.toJson), ("line", .ofLine line)]
  | assign op target value line => .obj [("type", .str "assign"),
      ("op", .ofOption BinaryOp.toJson op), ("target", target.toJson), ("value", value.toJson),
      ("line", .ofLine line)]
  | step up before target line => .obj [("type", .str "incDec"), ("increment", .bool up),
      ("prefix", .bool before), ("target", target.toJson), ("line", .ofLine line)]

def accessToJson : Access → Json
  | .index index => .obj [("type", .str "index"), ("index", index.toJson)]
  | .member name => .obj [("type", .str "member"), ("name", .str name)]
  | .arrow name => .obj [("type", .str "arrow"), ("name", .str name)]

def pathToJson : List Access → List Json
  | [] => []
  | access :: rest => accessToJson access :: pathToJson rest

def listToJson : List Expr → List Json
  | [] => []
  | e :: rest => e.toJson :: listToJson rest

end

/-- Read the form `name` of an expression from its fields, given how to read what is inside. -/
def readForm? (expr? : Json → Option Expr) (access? : Json → Option Access) (name : String)
    (j : Json) : Option Expr :=
  match name with
  | "constant" =>
    match j.fields? ["hex", "fixed", "line"] with
    | some [hex, fixed, line] => do
      return constant (← Json.required Json.str? hex) (← Json.withDefault false Json.bool? fixed)
        (← Json.required Json.uint32? line)
    | _ => none
  | "lookup" =>
    match j.fields? ["name", "modifiers", "line"] with
    | some [name, path, line] => do
      return lookup (← Json.required Json.str? name)
        (← Json.withDefault [] (Json.list? access?) path) (← Json.required Json.uint32? line)
    | _ => none
  | "call" =>
    match j.fields? ["name", "args", "line"] with
    | some [name, args, line] => do
      return call (← Json.required Json.str? name)
        (← Json.withDefault [] (Json.list? expr?) args) (← Json.required Json.uint32? line)
    | _ => none
  | "unary" =>
    match j.fields? ["op", "operand", "line"] with
    | some [op, operand, line] => do
      return unary (← Json.required (UnaryOp.read? .loose) op) (← Json.required expr? operand)
        (← Json.required Json.uint32? line)
    | _ => none
  | "binary" =>
    match j.fields? ["op", "left", "right", "line"] with
    | some [op, left, right, line] => do
      return binary (← Json.required (BinaryOp.read? .loose) op) (← Json.required expr? left)
        (← Json.required expr? right) (← Json.required Json.uint32? line)
    | _ => none
  | "compare" =>
    match j.fields? ["op", "left", "right", "line"] with
    | some [op, left, right, line] => do
      return compare (← Json.required (Comparison.read? .loose) op) (← Json.required expr? left)
        (← Json.required expr? right) (← Json.required Json.uint32? line)
    | _ => none
  | "logical" =>
    match j.fields? ["op", "left", "right", "line"] with
    | some [op, left, right, line] => do
      return logical (← Json.required (LogicalOp.read? .loose) op) (← Json.required expr? left)
        (← Json.required expr? right) (← Json.required Json.uint32? line)
    | _ => none
  | "assign" =>
    match j.fields? ["op", "target", "value", "line"] with
    | some [op, target, value, line] => do
      return assign (← Json.optional (BinaryOp.read? .loose) op) (← Json.required expr? target)
        (← Json.required expr? value) (← Json.required Json.uint32? line)
    | _ => none
  | "incDec" =>
    match j.fields? ["increment", "prefix", "target", "line"] with
    | some [up, before, target, line] => do
      return step (← Json.required Json.bool? up) (← Json.required Json.bool? before)
        (← Json.required expr? target) (← Json.required Json.uint32? line)
    | _ => none
  | _ => none

/-- Read the form `name` of an access from its fields. -/
def readAccessForm? (expr? : Json → Option Expr) (name : String) (j : Json) : Option Access :=
  match name with
  | "index" =>
    match j.fields? ["index"] with
    | some [index] => (Json.required expr? index).map .index
    | _ => none
  | "member" =>
    match j.fields? ["name"] with
    | some [member] => (Json.required Json.str? member).map .member
    | _ => none
  | "arrow" =>
    match j.fields? ["name"] with
    | some [member] => (Json.required Json.str? member).map .arrow
    | _ => none
  | _ => none

/-- The forms of expressions by number. -/
def forms : List String :=
  ["constant", "lookup", "call", "unary", "binary", "compare", "logical", "assign", "incDec"]

/-- The forms of accesses by number. -/
def accessForms : List String :=
  ["index", "member", "arrow"]

/-- Read an expression nested at most `depth` deep. -/
def read? : Json.Spelling → (depth : Nat) → Json → Option Expr
  | _, 0, _ => none
  | spelling, depth + 1, j => do
    let (name, fields) ← j.form? forms spelling
    let access? (a : Json) : Option Access := do
      let (name, fields) ← a.form? accessForms .loose
      readAccessForm? (read? .loose depth) name fields
    readForm? (read? .loose depth) access? name fields

def ofJson? (j : Json) : Option Expr :=
  read? .strict j.depth j

/-- Read an expression that stands inside a statement. -/
def inner? (j : Json) : Option Expr :=
  read? .loose j.depth j

end Expr

namespace Stmt

mutual

def toJson : Stmt → Json
  | expression expr => .obj [("type", .str "expression"), ("expr", expr.toJson)]
  | const expr => .obj [("type", .str "const"), ("expr", expr.toJson)]
  | declaration tokens => .obj [("type", .str "declaration"),
      ("tokens", .arr (tokens.map Token.toJson))]
  | structDefinition name members line => .obj [("type", .str "structDefinition"),
      ("name", .str name), ("members", .arr (members.map Token.toJson)), ("line", .ofLine line)]
  | ifElse condition thenBranch elseBranch line => .obj [("type", .str "if"),
      ("condition", condition.toJson), ("then_branch", .arr (listToJson thenBranch)),
      ("else_branch", optionToJson elseBranch), ("line", .ofLine line)]
  | whileLoop condition body line => .obj [("type", .str "while"),
      ("condition", condition.toJson), ("body", .arr (listToJson body)), ("line", .ofLine line)]
  | doLoop body condition line => .obj [("type", .str "doWhile"),
      ("body", .arr (listToJson body)), ("condition", condition.toJson), ("line", .ofLine line)]
  | forLoop init condition step body line => .obj [("type", .str "for"),
      ("init", .ofOption Expr.toJson init), ("condition", .ofOption Expr.toJson condition),
      ("step", .ofOption Expr.toJson step), ("body", .arr (listToJson body)),
      ("line", .ofLine line)]
  | breakLoop line => .obj [("type", .str "break"), ("line", .ofLine line)]
  | continueLoop line => .obj [("type", .str "continue"), ("line", .ofLine line)]
  | goto target line => .obj [("type", .str "goto"), ("label", .str target),
      ("line", .ofLine line)]
  | label name line => .obj [("type", .str "label"), ("name", .str name), ("line", .ofLine line)]
  | ret value line => .obj [("type", .str "return"), ("value", .ofOption Expr.toJson value),
      ("line", .ofLine line)]
  | exit line => .obj [("type", .str "exit"), ("line", .ofLine line)]
  | halt line => .obj [("type", .str "halt"), ("line", .ofLine line)]
  | block body => .obj [("type", .str "block"), ("body", .arr (listToJson body))]

def listToJson : List Stmt → List Json
  | [] => []
  | stmt :: rest => stmt.toJson :: listToJson rest

def optionToJson : Option (List Stmt) → Json
  | none => .null
  | some body => .arr (listToJson body)

end

/-- Read the form `name` of a statement from its fields, given how to read inner statements. -/
def readForm? (stmt? : Json → Option Stmt) (name : String) (j : Json) : Option Stmt :=
  match name with
  | "expression" =>
    match j.fields? ["expr"] with
    | some [expr] => (Json.required Expr.inner? expr).map expression
    | _ => none
  | "const" =>
    match j.fields? ["expr"] with
    | some [expr] => (Json.required Expr.inner? expr).map const
    | _ => none
  | "declaration" =>
    match j.fields? ["tokens"] with
    | some [tokens] => (Json.required (Json.list? Token.inner?) tokens).map declaration
    | _ => none
  | "structDefinition" =>
    match j.fields? ["name", "members", "line"] with
    | some [name, members, line] => do
      return structDefinition (← Json.required Json.str? name)
        (← Json.required (Json.list? Token.inner?) members) (← Json.required Json.uint32? line)
    | _ => none
  | "if" =>
    match j.fields? ["condition", "then_branch", "else_branch", "line"] with
    | some [condition, thenBranch, elseBranch, line] => do
      return ifElse (← Json.required Expr.inner? condition)
        (← Json.required (Json.list? stmt?) thenBranch)
        (← Json.optional (Json.list? stmt?) elseBranch) (← Json.required Json.uint32? line)
    | _ => none
  | "while" =>
    match j.fields? ["condition", "body", "line"] with
    | some [condition, body, line] => do
      return whileLoop (← Json.required Expr.inner? condition)
        (← Json.required (Json.list? stmt?) body) (← Json.required Json.uint32? line)
    | _ => none
  | "doWhile" =>
    match j.fields? ["body", "condition", "line"] with
    | some [body, condition, line] => do
      return doLoop (← Json.required (Json.list? stmt?) body)
        (← Json.required Expr.inner? condition) (← Json.required Json.uint32? line)
    | _ => none
  | "for" =>
    match j.fields? ["init", "condition", "step", "body", "line"] with
    | some [init, condition, step, body, line] => do
      return forLoop (← Json.optional Expr.inner? init) (← Json.optional Expr.inner? condition)
        (← Json.optional Expr.inner? step) (← Json.required (Json.list? stmt?) body)
        (← Json.required Json.uint32? line)
    | _ => none
  | "break" =>
    match j.fields? ["line"] with
    | some [line] => (Json.required Json.uint32? line).map breakLoop
    | _ => none
  | "continue" =>
    match j.fields? ["line"] with
    | some [line] => (Json.required Json.uint32? line).map continueLoop
    | _ => none
  | "goto" =>
    match j.fields? ["label", "line"] with
    | some [name, line] => do
      return goto (← Json.required Json.str? name) (← Json.required Json.uint32? line)
    | _ => none
  | "label" =>
    match j.fields? ["name", "line"] with
    | some [name, line] => do
      return label (← Json.required Json.str? name) (← Json.required Json.uint32? line)
    | _ => none
  | "return" =>
    match j.fields? ["value", "line"] with
    | some [value, line] => do
      return ret (← Json.optional Expr.inner? value) (← Json.required Json.uint32? line)
    | _ => none
  | "exit" =>
    match j.fields? ["line"] with
    | some [line] => (Json.required Json.uint32? line).map exit
    | _ => none
  | "halt" =>
    match j.fields? ["line"] with
    | some [line] => (Json.required Json.uint32? line).map halt
    | _ => none
  | "block" =>
    match j.fields? ["body"] with
    | some [body] => (Json.required (Json.list? stmt?) body).map block
    | _ => none
  | _ => none

/-- The forms of statements by number. -/
def forms : List String :=
  ["expression", "const", "declaration", "structDefinition", "if", "while", "doWhile", "for",
    "break", "continue", "goto", "label", "return", "exit", "halt", "block"]

/-- Read a statement nested at most `depth` deep. -/
def read? : Json.Spelling → (depth : Nat) → Json → Option Stmt
  | _, 0, _ => none
  | spelling, depth + 1, j => do
    let (name, fields) ← j.form? forms spelling
    readForm? (read? .loose depth) name fields

def ofJson? (j : Json) : Option Stmt :=
  read? .strict j.depth j

end Stmt

namespace Pragma

def toJson (p : Pragma) : Json :=
  .obj [("name", .str p.name), ("value", .str p.value), ("line", .ofLine p.line)]

def ofJson? (j : Json) : Option Pragma :=
  match j.fields? ["name", "value", "line"] with
  | some [name, value, line] => do
    return {
      name := ← Json.required Json.str? name
      value := ← Json.withDefault "" Json.str? value
      line := ← Json.required Json.uint32? line }
  | _ => none

end Pragma

namespace Function

def toJson (f : Function) : Json :=
  .obj [("name", .str f.name), ("returnType", f.returnType.toJson),
    ("arguments", .arr (f.arguments.map Token.toJson)), ("body", .arr (f.body.map Stmt.toJson)),
    ("line", .ofLine f.line)]

/-- Read a function, given how to read its arguments and its statements. -/
def read? (token? : Json → Option Token) (stmt? : Json → Option Stmt) (j : Json) :
    Option Function :=
  match j.fields? ["name", "returnType", "arguments", "body", "line"] with
  | some [name, returnType, arguments, body, line] => do
    return {
      name := ← Json.required Json.str? name
      returnType := ← Json.required ValueType.ofJson? returnType
      arguments := ← Json.withDefault [] (Json.list? token?) arguments
      body := ← Json.withDefault [] (Json.list? stmt?) body
      line := ← Json.required Json.uint32? line }
  | _ => none

def ofJson? : Json → Option Function :=
  read? Token.ofJson? Stmt.ofJson?

/-- Read a function nested at most `depth + 2` deep: its arguments and its body are arrays. -/
def readWithin? (depth : Nat) : Json → Option Function :=
  read? (Token.read? .strict depth) (Json.within depth Stmt.ofJson?)

end Function

namespace Program

def toJson (p : Program) : Json :=
  .obj [("pragmas", .arr (p.pragmas.map Pragma.toJson)), ("global", .arr (p.main.map Stmt.toJson)),
    ("functions", .arr (p.functions.map Function.toJson)),
    ("sourceLines", .arr (p.sourceLines.map .str))]

/-- Read a program, given how to read its statements and its functions. -/
def read? (stmt? : Json → Option Stmt) (function? : Json → Option Function) (j : Json) :
    Option Program :=
  match j.fields? ["pragmas", "global", "functions", "sourceLines"] with
  | some [pragmas, main, functions, sourceLines] => do
    return {
      pragmas := ← Json.withDefault [] (Json.list? Pragma.ofJson?) pragmas
      main := ← Json.withDefault [] (Json.list? stmt?) main
      functions := ← Json.withDefault [] (Json.list? function?) functions
      sourceLines := ← Json.withDefault [] (Json.list? Json.str?) sourceLines }
  | _ => none

def ofJson? : Json → Option Program :=
  read? Stmt.ofJson? Function.ofJson?

/-- Read a program nested at most `depth + 4` deep, where it may hold functions in an array. -/
def readWithin? (depth : Nat) : Json → Option Program :=
  read? (Json.within (depth + 2) Stmt.ofJson?) (Function.readWithin? depth)

/-- Read a program from a text. -/
def ofText? (text : String) : Option Program :=
  (Json.parse? text).bind (readWithin? 123)

end Program

end Flatword
