import Flatword.Source.Expr
import Flatword.Source.Token

/-!
# Statements
-/

namespace Flatword

inductive Stmt where
  | expression (expr : Expr)
  /-- An assignment of a value known at compile time. -/
  | const (expr : Expr)
  | declaration (tokens : List Token)
  | structDefinition (name : String) (members : List Token) (line : Line)
  | ifElse (condition : Expr) (thenBranch : List Stmt) (elseBranch : Option (List Stmt))
      (line : Line)
  | whileLoop (condition : Expr) (body : List Stmt) (line : Line)
  | doLoop (body : List Stmt) (condition : Expr) (line : Line)
  | forLoop (init condition step : Option Expr) (body : List Stmt) (line : Line)
  | breakLoop (line : Line)
  | continueLoop (line : Line)
  | goto (label : String) (line : Line)
  | label (name : String) (line : Line)
  | ret (value : Option Expr) (line : Line)
  | exit (line : Line)
  | halt (line : Line)
  | block (body : List Stmt)
  deriving Repr

namespace Stmt

/-- The source line of a statement. A declaration has that of its first token, a block that of its
first statement, if there is one. -/
def line? : Stmt → Option Line
  | expression expr | const expr => some expr.line
  | declaration tokens => tokens.head?.map Token.line
  | structDefinition _ _ line | ifElse _ _ _ line | whileLoop _ _ line | doLoop _ _ line
  | forLoop _ _ _ _ line | breakLoop line | continueLoop line | goto _ line | label _ line
  | ret _ line | exit line | halt line => some line
  | block [] => none
  | block (first :: _) => first.line?

end Stmt

end Flatword
