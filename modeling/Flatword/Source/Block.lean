import Flatword.Source.Program

/-!
# What the blocks of a unit hold

A unit is the main code or the body of one function. Its labels and its definitions are collected
from all of its blocks, in source order.
-/

namespace Flatword

/-- A statement that defines variables or a struct. -/
inductive Definition where
  | variables (tokens : List Token)
  | struct (name : String) (members : List Token) (line : Line)

/-- A label with the line that it stands on. -/
structure LabelAt where
  name : String
  line : Line
  deriving DecidableEq, Repr

namespace Stmt

mutual

/-- The definitions of a statement and of the blocks inside it. -/
def definitions : Stmt → List Definition
  | declaration tokens => [.variables tokens]
  | structDefinition name members line => [.struct name members line]
  | ifElse _ thenBranch elseBranch _ =>
    blockDefinitions thenBranch ++ elseDefinitions elseBranch
  | whileLoop _ body _ | doLoop body _ _ | forLoop _ _ _ body _ | block body =>
    blockDefinitions body
  | _ => []

def blockDefinitions : List Stmt → List Definition
  | [] => []
  | stmt :: rest => stmt.definitions ++ blockDefinitions rest

def elseDefinitions : Option (List Stmt) → List Definition
  | none => []
  | some body => blockDefinitions body

end

mutual

/-- The labels of a statement and of the blocks inside it. -/
def labels : Stmt → List LabelAt
  | label name line => [⟨name, line⟩]
  | ifElse _ thenBranch elseBranch _ => blockLabels thenBranch ++ elseLabels elseBranch
  | whileLoop _ body _ | doLoop body _ _ | forLoop _ _ _ body _ | block body => blockLabels body
  | _ => []

def blockLabels : List Stmt → List LabelAt
  | [] => []
  | stmt :: rest => stmt.labels ++ blockLabels rest

def elseLabels : Option (List Stmt) → List LabelAt
  | none => []
  | some body => blockLabels body

end

/-- The label at the end of a block, where no statement follows it. -/
def endLabel? (body : List Stmt) : Option LabelAt :=
  match body.getLast? with
  | some (label name line) => some ⟨name, line⟩
  | _ => none

mutual

/-- The first block inside a statement that ends in a label gives that label. -/
def danglingLabel? : Stmt → Option LabelAt
  | ifElse _ thenBranch elseBranch _ =>
    ((endLabel? thenBranch).or (danglingInside? thenBranch)).or (elseDangling? elseBranch)
  | whileLoop _ body _ | doLoop body _ _ | forLoop _ _ _ body _ | block body =>
    (endLabel? body).or (danglingInside? body)
  | _ => none

def danglingInside? : List Stmt → Option LabelAt
  | [] => none
  | stmt :: rest => stmt.danglingLabel?.or (danglingInside? rest)

def elseDangling? : Option (List Stmt) → Option LabelAt
  | none => none
  | some body => (endLabel? body).or (danglingInside? body)

end

/-- The first label whose name was used before it, `seen` included. -/
def repeatedLabel? (seen : List String) : List LabelAt → Option LabelAt
  | [] => none
  | l :: rest => if l.name ∈ seen then some l else repeatedLabel? (l.name :: seen) rest

/-- What is wrong with the labels of a unit: a name used twice, or else a label at the end of a
block. -/
def labelFault? (body : List Stmt) : Option Failure :=
  match repeatedLabel? [] (blockLabels body) with
  | some l => some (.atLine l.line (.labelRedefined l.name))
  | none =>
    ((endLabel? body).or (danglingInside? body)).map fun l =>
      .atLine l.line (.danglingLabel l.name)

end Stmt

end Flatword
