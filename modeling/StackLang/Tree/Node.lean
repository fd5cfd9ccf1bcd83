import StackLang.Double
import StackLang.Ty

/-!
# Syntax trees

Statements and expressions share one type: a statement is a node in statement position. Variables
and functions are named, and a name means what the nearest enclosing scope declares.
-/

namespace StackLang

/-- Position of a scope in its program. -/
abbrev ScopeIndex := Nat

inductive BinaryOp where
  | add
  | sub
  | mul
  | div
  | mod
  /-- Logical and; both sides are evaluated. -/
  | and
  /-- Logical or; both sides are evaluated. -/
  | or
  | bitAnd
  | bitOr
  | bitXor
  | lt
  | le
  | gt
  | ge
  | eq
  | ne
  /-- Lower and upper bound of a `for` loop, both included; legal nowhere else. -/
  | range
  deriving DecidableEq

namespace BinaryOp

def all : List BinaryOp :=
  [add, sub, mul, div, mod, and, or, bitAnd, bitOr, bitXor, lt, le, gt, ge, eq, ne, range]

def symbol : BinaryOp → String
  | add => "+"
  | sub => "-"
  | mul => "*"
  | div => "/"
  | mod => "%"
  | and => "&&"
  | or => "||"
  | bitAnd => "&"
  | bitOr => "|"
  | bitXor => "^"
  | lt => "<"
  | le => "<="
  | gt => ">"
  | ge => ">="
  | eq => "=="
  | ne => "!="
  | range => ".."

def isComparison : BinaryOp → Bool
  | lt | le | gt | ge | eq | ne => true
  | _ => false

end BinaryOp

inductive UnaryOp where
  | plus
  | minus
  | not
  deriving DecidableEq

def UnaryOp.symbol : UnaryOp → String
  | plus => "+"
  | minus => "-"
  | not => "!"

/-- How an assignment combines the new value with the old one. -/
inductive AssignOp where
  | assign
  | addAssign
  | subAssign
  deriving DecidableEq

def AssignOp.symbol : AssignOp → String
  | assign => "="
  | addAssign => "+="
  | subAssign => "-="

mutual

/-- A statement or an expression. -/
inductive Node where
  | int (n : Int64)
  | double (d : Double)
  | string (s : String)
  | load (name : String)
  | store (name : String) (op : AssignOp) (value : Node)
  | binary (op : BinaryOp) (left right : Node)
  | unary (op : UnaryOp) (operand : Node)
  | call (name : String) (args : List Node)
  | block (body : Block)
  | ifElse (condition : Node) (thenBlock : Block) (elseBlock : Option Block)
  | whileLoop (condition : Node) (body : Block)
  /-- Runs the body with `var` at each int of the range, the upper bound included. -/
  | forLoop (var : String) (range : Node) (body : Block)
  | ret (value : Option Node)
  /-- Prints the operands one after the other, with nothing between them. -/
  | print (operands : List Node)
  /-- Hands the parameters of the enclosing function to the host and returns what it gives. -/
  | native (symbol : String)

/-- Statements with the scope that their names are looked up from. -/
inductive Block where
  | mk (scope : ScopeIndex) (statements : List Node)

end

namespace Block

def scope : Block → ScopeIndex
  | mk scope _ => scope

def statements : Block → List Node
  | mk _ statements => statements

end Block

end StackLang
